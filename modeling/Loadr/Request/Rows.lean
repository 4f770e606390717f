import Mathlib.Data.Nat.SuccPred
import Loadr.Lib.Epochs
import Loadr.Request.Expressions

/-!
# The rows of a request

A row of a plugin is kept until the next message of a streaming call begins, so it depends on the
order of rendering which row a part gets.

`Looked` says what rendering does with one source.  The parts before the messages and the first
message share a row, every further message takes a new one; what is rendered after the messages sees
the row of the last one (`rows_agree_iff`).
-/

namespace Loadr.Request

open Loadr.Flow Fallible List

/-! ## What expressions look up -/

def sources (w : World) (f : Field) : ℕ → List String → List String
  | _, [] => []
  | k, e :: es => exprSources w f k e ++ sources w f (if (jsCode e).isSome then k + 1 else k) es

variable {evals : Field → ℕ} {f g : Field} {s t : Session} {fields : List Field} {k : ℕ}

section Looks

variable (w : World) (x : String)

def exprLooks (f : Field) (k : ℕ) (expr : String) : List Field :=
  ((exprSources w f k expr).filter (· = x)).map fun _ => f

def callLooks : (Field → ℕ) → List Call → List Field
  | _, [] => []
  | evals, call :: calls =>
    exprLooks w x call.1 (evals call.1) call.2 ++ callLooks (bump evals call) calls

theorem callLooks_append (evals : Field → ℕ) (calls calls' : List Call) :
    callLooks w x evals (calls ++ calls') =
      callLooks w x evals calls ++ callLooks w x (calls.foldl bump evals) calls' := by
  induction calls generalizing evals with
  | nil => rfl
  | cons call calls ih => rw [cons_append, callLooks, ih, callLooks, append_assoc, foldl_cons]

theorem foldl_bump_of_ne (hne : g ≠ f) (es : List String) :
    (es.map (f, ·)).foldl bump evals g = evals g := by
  induction es generalizing evals with
  | nil => rfl
  | cons e es ih =>
    rw [map_cons, foldl_cons, ih, bump]
    split_ifs
    · exact Function.update_of_ne hne _ _
    · rfl

theorem callLooks_field (evals : Field → ℕ) (f : Field) (es : List String) :
    callLooks w x evals (es.map (f, ·)) =
      ((sources w f (evals f) es).filter (· = x)).map fun _ => f := by
  induction es generalizing evals with
  | nil => rfl
  | cons e es ih =>
    rw [map_cons, callLooks, ih, sources, filter_append, map_append, exprLooks, bump]
    congr 3
    split_ifs
    · exact congrArg (sources w f · es) (Function.update_self _ _ _)
    · rfl

end Looks

/-! ## Sessions and the cache of one source -/

def cacheOf (x : String) (s : Session) : Cache Field where
  cached := s.isCached x
  taken := s.taken x
  log := (s.log.filter (·.source = x)).map fun l => (l.field, l.number)

/-- The rows of the log are those of their numbers. -/
def Consistent (x : String) (s : Session) : Prop :=
  ∃ rows : ℕ → Option Row, (s.isCached x = true → s.data.currentRows x = rows (s.taken x)) ∧
    ∀ a ∈ s.log, a.source = x → a.number ≤ s.taken x ∧ rows a.number = some a.row

theorem Consistent.same {x : String} {a b : Lookup} (h : Consistent x s) (ha : a ∈ s.log)
    (hb : b ∈ s.log) (has : a.source = x) (hbs : b.source = x) (hn : a.number = b.number) :
    a.row = b.row := by
  obtain ⟨rows, -, hrows⟩ := h
  exact Option.some.inj ((hrows a ha has).2.symm.trans (hn ▸ (hrows b hb hbs).2))

/-- The calls were made, if the source is looked up as they do. -/
structure Looked (w : World) (x : String) (calls : List Call) (s t : Session) : Prop where
  evals : t.evals = calls.foldl bump s.evals
  cache : cacheOf x t = (cacheOf x s).looks (callLooks w x s.evals calls)
  consistent : Consistent x s → Consistent x t

instance (w : World) (x : String) : Composes (Looked w x) where
  nil s := ⟨rfl, rfl, id⟩
  append {l l' s t u} h h' := by
    refine ⟨?_, ?_, fun hs => h'.consistent (h.consistent hs)⟩
    · rw [h'.evals, h.evals, foldl_append]
    · rw [h'.cache, h.cache, h.evals, callLooks_append, Cache.looks_append]

/-! ## Lookups -/

section Lookup

variable {w : World} {x : String} {source : String} {row : Row}

theorem currentRows_of_dataRow {data : DataFeeds} {supply : Supply} {counters counters' : Counters}
    {cx cx' : DataContext} (h : cx.dataRow data source supply counters = (.ok row, counters', cx')) :
    cx'.currentRows = Function.update cx.currentRows source (some row) ∧
      ∀ kept, cx.currentRows source = some kept → kept = row := by
  unfold DataContext.dataRow at h
  cases hrow : cx.currentRows source with
  | some row' =>
    rw [hrow] at h
    obtain rfl : row' = row := by simpa using congrArg Prod.fst h
    obtain rfl : cx = cx' := congrArg (·.2.2) h
    rw [← hrow, Function.update_eq_self]
    exact ⟨rfl, fun kept hkept => Option.some.inj (hkept.symm.trans hrow)⟩
  | none =>
    rw [hrow] at h
    dsimp only at h
    split at h
    · rename_i row' hnext
      obtain rfl : row' = row := by simpa using congrArg Prod.fst h
      exact ⟨congrArg (·.2.2.currentRows) h.symm, fun kept hkept => by cases hkept⟩
    · cases congrArg Prod.fst h

section

variable (h : s.dataRow w f source = (.ok row, t))
include h

theorem dataRow_ok :
    t.evals = s.evals ∧
      t.data.currentRows = Function.update s.data.currentRows source (some row) ∧
      t.taken = Function.update s.taken source (cacheOf source s).number ∧
      t.log = s.log ++ [⟨f, source, (cacheOf source s).number, row⟩] ∧
      ∀ kept, s.data.currentRows source = some kept → kept = row := by
  unfold Session.dataRow at h
  dsimp only at h
  split at h
  · rename_i row' counters data hrow
    obtain rfl : row' = row := by simpa using congrArg Prod.fst h
    obtain rfl := congrArg Prod.snd h
    obtain ⟨hrows, hkept⟩ := currentRows_of_dataRow hrow
    exact ⟨rfl, hrows, rfl, rfl, hkept⟩
  · cases congrArg Prod.fst h

theorem cacheOf_of_dataRow :
    cacheOf x t = if source = x then (cacheOf x s).look f else cacheOf x s := by
  obtain ⟨-, hrows, htaken, hlog, -⟩ := dataRow_ok h
  split_ifs with hx
  · subst hx
    simp [cacheOf, Session.isCached, hrows, htaken, hlog, Cache.look]
  · have hne : x ≠ source := fun h => hx h.symm
    simp [cacheOf, Session.isCached, hrows, htaken, hlog, Function.update_of_ne hne, hx]

theorem consistent_of_dataRow (hs : Consistent x s) : Consistent x t := by
  obtain ⟨-, hrows, htaken, hlog, hkept⟩ := dataRow_ok h
  obtain ⟨rows, hcurrent, hlogged⟩ := hs
  have hnew : ∀ a ∈ t.log, a ∈ s.log ∨ a = ⟨f, source, (cacheOf source s).number, row⟩ := by
    intro a ha
    rw [hlog, mem_append, mem_singleton] at ha
    exact ha
  by_cases hx : source = x
  · subst hx
    -- An older row with the number of this one is the row that was kept.
    have hold : ∀ a ∈ s.log, a.source = source → a.number ≤ (cacheOf source s).number ∧
        (a.number = (cacheOf source s).number → a.row = row) := by
      intro a ha hsource
      obtain ⟨hle, hrow⟩ := hlogged a ha hsource
      rw [Cache.number]
      split_ifs with hcached
      · refine ⟨hle, fun hn => hkept a.row ((hcurrent hcached).trans ?_)⟩
        exact (congrArg rows hn).symm.trans hrow
      · change a.number ≤ s.taken source + 1 ∧ (a.number = s.taken source + 1 → _)
        omega
    refine ⟨Function.update rows (cacheOf source s).number (some row), fun _ => ?_,
      fun a ha hsource => ?_⟩
    · rw [hrows, htaken, Function.update_self, Function.update_self, Function.update_self]
    · rw [htaken, Function.update_self]
      rcases hnew a ha with ha | rfl
      · refine ⟨(hold a ha hsource).1, ?_⟩
        by_cases hn : a.number = (cacheOf source s).number
        · rw [hn, Function.update_self, (hold a ha hsource).2 hn]
        · rw [Function.update_of_ne hn, (hlogged a ha hsource).2]
      · exact ⟨le_rfl, Function.update_self ..⟩
  · have hne : x ≠ source := fun h => hx h.symm
    rw [Consistent, Session.isCached, hrows, htaken, Function.update_of_ne hne,
      Function.update_of_ne hne]
    refine ⟨rows, hcurrent, fun a ha hsource => ?_⟩
    rcases hnew a ha with ha | rfl
    · exact hlogged a ha hsource
    · cases hx hsource

end

theorem lookupRows_ok {rows : List String} (h : lookupRows w f rows s = (true, t)) :
    t.evals = s.evals ∧
      cacheOf x t = (cacheOf x s).looks ((rows.filter (· = x)).map fun _ => f) ∧
      (Consistent x s → Consistent x t) := by
  induction rows generalizing s with
  | nil =>
    obtain rfl : s = t := congrArg Prod.snd h
    exact ⟨rfl, rfl, id⟩
  | cons source rows ih =>
    rw [lookupRows] at h
    split at h
    · rename_i row u hrow
      obtain ⟨hevals, hcache, hconsistent⟩ := ih h
      refine ⟨hevals.trans (dataRow_ok hrow).1, ?_,
        fun hs => hconsistent (consistent_of_dataRow hrow hs)⟩
      rw [hcache, cacheOf_of_dataRow hrow, filter_cons]
      by_cases hx : source = x <;> simp [hx, Cache.looks]
    · cases congrArg Prod.fst h

end Lookup

/-! ## Rendering -/

section Render

variable {w : World} {x : String}

theorem looked_renderExpr (expr : String) :
    Does (Looked w x) (renderExpr w f expr) [(f, expr)] := by
  intro s v t h
  obtain ⟨u, vars, hrows, rfl⟩ := gives_renderExpr h
  obtain ⟨hevals, hcache, hconsistent⟩ := lookupRows_ok (x := x) hrows
  -- Neither the numbers of scripts nor variables are part of the cache.
  refine ⟨hevals, hcache.trans ?_, hconsistent⟩
  rw [callLooks, callLooks, append_nil]
  rfl

theorem traces_looked (w : World) (x : String) : Traces w (Looked w x) :=
  fun _ => looked_renderExpr

end Render

/-! ## The lookups of the parts -/

section Parts

variable (w : World) (x : String) (http : HttpDefaults) (req : CompiledRequest)

def Reads (f : Field) : Prop := x ∈ sources w f 0 (expressionsOf http req f)

def fieldLooks (f : Field) : List Field :=
  ((sources w f 0 (expressionsOf http req f)).filter (· = x)).map fun _ => f

variable {w x http req}

theorem mem_fieldLooks : g ∈ fieldLooks w x http req f ↔ g = f ∧ Reads w x http req f := by
  simp only [fieldLooks, mem_map, mem_filter, decide_eq_true_eq, Reads]
  constructor
  · rintro ⟨source, ⟨hmem, rfl⟩, rfl⟩
    exact ⟨rfl, hmem⟩
  · rintro ⟨rfl, hmem⟩
    exact ⟨x, ⟨hmem, rfl⟩, rfl⟩

theorem foldl_bump_fields (hg : g ∉ fields) :
    (fields.flatMap (callsOf http req)).foldl bump evals g = evals g := by
  induction fields generalizing evals with
  | nil => rfl
  | cons f fields ih =>
    obtain ⟨hne, hrest⟩ := not_or.1 (fun h => hg (mem_cons.2 h))
    rw [flatMap_cons, foldl_append, ih hrest]
    exact foldl_bump_of_ne hne _

/-- Each part has scripts of its own, so what it looks up does not depend on the parts before. -/
theorem callLooks_fields (hnodup : fields.Nodup) (hevals : ∀ f ∈ fields, evals f = 0) :
    callLooks w x evals (fields.flatMap (callsOf http req)) =
      fields.flatMap (fieldLooks w x http req) := by
  induction fields generalizing evals with
  | nil => rfl
  | cons f fields ih =>
    obtain ⟨hf, hrest⟩ := nodup_cons.1 hnodup
    have hafter : ∀ g ∈ fields, (callsOf http req f).foldl bump evals g = 0 := by
      intro g hg
      have hne : g ≠ f := fun h => hf (h ▸ hg)
      exact (foldl_bump_of_ne hne _).trans (hevals g (mem_cons_of_mem f hg))
    rw [flatMap_cons, callLooks_append, ih hrest hafter, flatMap_cons, callsOf,
      callLooks_field, hevals f mem_cons_self]
    rfl

end Parts

/-! ## Messages -/

section Messages

variable {w : World} {x : String} {http : HttpDefaults} {req : CompiledRequest}

theorem hasOnDemand_of_isOnDemand {data : DataFeeds} (h : data.isOnDemand x = true) :
    data.hasOnDemand = true := by
  unfold DataFeeds.isOnDemand DataFeeds.get at h
  cases hfeed : data.feeds.lookup x with
  | none => rw [hfeed] at h; cases h
  | some feed =>
    rw [hfeed] at h
    have hmem : (x, feed) ∈ data.feeds := by
      obtain ⟨l, l', heq, -⟩ := lookup_eq_some_iff.1 hfeed
      rw [heq]
      exact mem_append_right l mem_cons_self
    exact any_eq_true.2 ⟨(x, feed), hmem, h⟩

theorem cacheOf_beginMessage (hx : w.data.isOnDemand x = true) (s : Session) :
    cacheOf x (s.beginMessage w) = (cacheOf x s).clear := by
  simp [cacheOf, Session.beginMessage, Session.isCached, DataContext.beginMessage,
    hasOnDemand_of_isOnDemand hx, hx, Cache.clear]

theorem Consistent.beginMessage (hx : w.data.isOnDemand x = true) (h : Consistent x s) :
    Consistent x (s.beginMessage w) := by
  obtain ⟨rows, -, hlogged⟩ := h
  refine ⟨rows, fun hcached => ?_, hlogged⟩
  have hclear : (s.beginMessage w).isCached x = false :=
    congrArg Cache.cached (cacheOf_beginMessage hx s)
  rw [hclear] at hcached
  cases hcached

theorem cacheOf_beginRequest (hx : w.data.isOnDemand x = true) (s : Session) :
    cacheOf x (s.beginRequest w) = {} := by
  simp [cacheOf, Session.beginRequest, Session.isCached, DataContext.beginRequest,
    DataContext.beginMessage, hasOnDemand_of_isOnDemand hx, hx]

theorem consistent_beginRequest (s : Session) : Consistent x (s.beginRequest w) :=
  ⟨fun _ => _, fun _ => rfl, fun _ ha => absurd ha not_mem_nil⟩

/-- The lookups of messages that are numbered from `k` on. -/
def frameLooks (w : World) (x : String) : ℕ → List CompiledJson → List (List Field)
  | _, [] => []
  | k, value :: values =>
    ((sources w (.frame k) 0 (compiledExpressions value)).filter (· = x)).map (fun _ => .frame k) ::
      frameLooks w x (k + 1) values

/-- What rendering messages does: lookups in `looks`, and scripts of no other part. -/
structure Framed (x : String) (looks : Cache Field → Cache Field) (s t : Session) : Prop where
  evals : ∀ g, (∀ j, g ≠ .frame j) → t.evals g = s.evals g
  cache : cacheOf x t = looks (cacheOf x s)
  consistent : Consistent x s → Consistent x t

theorem framed_of_looked {value : CompiledJson}
    (h : Looked w x ((compiledExpressions value).map (.frame k, ·)) s t)
    (hevals : s.evals (.frame k) = 0) :
    Framed x (fun c => c.looks (((sources w (.frame k) 0 (compiledExpressions value)).filter
      (· = x)).map fun _ => .frame k)) s t ∧ ∀ j, j ≠ k → t.evals (.frame j) = s.evals (.frame j) := by
  refine ⟨⟨fun g hg => ?_, ?_, h.consistent⟩, fun j hj => ?_⟩
  · rw [h.evals]
    exact foldl_bump_of_ne (hg k) _
  · rw [h.cache, callLooks_field, hevals]
  · rw [h.evals]
    exact foldl_bump_of_ne (fun heq => hj (Field.frame.inj heq)) _

theorem framed_renderFrames (hx : w.data.isOnDemand x = true) (values : List CompiledJson)
    (hk : k ≠ 0) {result : List Json} (h : Gives (renderFrames w k values) s result t)
    (hevals : ∀ j, k ≤ j → s.evals (.frame j) = 0) :
    Framed x (fun c => c.epochs (frameLooks w x k values)) s t := by
  induction values generalizing k s result with
  | nil =>
    obtain ⟨-, rfl⟩ := gives_pure.1 h
    exact ⟨fun _ _ => rfl, rfl, id⟩
  | cons value values ih =>
    rw [renderFrames, if_pos hk] at h
    obtain ⟨_, u, hbegin, h⟩ := gives_bind.1 h
    obtain rfl : s.beginMessage w = u := congrArg Prod.snd hbegin
    obtain ⟨frame, u, hframe, h⟩ := gives_bind.1 h
    obtain ⟨rest, u', hrest, h⟩ := gives_bind.1 h
    obtain ⟨-, rfl⟩ := gives_pure.1 h
    obtain ⟨hone, hother⟩ := framed_of_looked (does_compiled (traces_looked w x) value _ _ _ hframe)
      (hevals k le_rfl)
    have hmore := ih (Nat.succ_ne_zero k) hrest fun j hj =>
      (hother j (by omega)).trans (hevals j (by omega))
    refine ⟨fun g hg => (hmore.evals g hg).trans (hone.evals g hg), ?_,
      fun hs => hmore.consistent (hone.consistent (hs.beginMessage hx))⟩
    rw [hmore.cache, hone.cache, cacheOf_beginMessage hx]
    rfl

theorem framed_renderMessages (hx : w.data.isOnDemand x = true) (values : List CompiledJson)
    {result : List Json} (h : Gives (renderFrames w 0 values) s result t)
    (hevals : ∀ j, s.evals (.frame j) = 0) :
    Framed x (fun c => match frameLooks w x 0 values with
      | [] => c
      | first :: rest => (c.looks first).epochs rest) s t := by
  cases values with
  | nil =>
    obtain ⟨-, rfl⟩ := gives_pure.1 h
    exact ⟨fun _ _ => rfl, rfl, id⟩
  | cons value values =>
    rw [renderFrames, if_neg (by simp)] at h
    obtain ⟨frame, u', hframe, h⟩ := gives_bind.1 h
    obtain ⟨rest, u'', hrest, h⟩ := gives_bind.1 h
    obtain ⟨-, rfl⟩ := gives_pure.1 h
    obtain ⟨hone, hother⟩ :=
      framed_of_looked (does_compiled (traces_looked w x) value _ _ _ hframe) (hevals 0)
    have hmore := framed_renderFrames hx values (Nat.succ_ne_zero 0) hrest fun j hj =>
      (hother j (by omega)).trans (hevals j)
    refine ⟨fun g hg => (hmore.evals g hg).trans (hone.evals g hg), ?_,
      fun hs => hmore.consistent (hone.consistent hs)⟩
    rw [hmore.cache, hone.cache]
    rfl

theorem frameLooks_eq_map (k : ℕ) (values : List CompiledJson) :
    frameLooks w x k values = values.mapIdx fun i value =>
      ((sources w (.frame (k + i)) 0 (compiledExpressions value)).filter (· = x)).map
        fun _ => .frame (k + i) := by
  induction values generalizing k with
  | nil => rfl
  | cons value values ih =>
    rw [frameLooks, ih, mapIdx_cons]
    simp only [Nat.add_zero, Nat.add_assoc, Nat.add_comm 1]

theorem frameLooks_frames : frameLooks w x 0 (frames req) =
    (List.range (frames req).length).map fun k => fieldLooks w x http req (.frame k) := by
  rw [frameLooks_eq_map]
  refine ext_getElem (by simp) fun i h₁ h₂ => ?_
  have hi : i < (frames req).length := by simpa using h₂
  simp [fieldLooks, expressionsOf, getElem?_eq_getElem hi]

end Messages

/-! ## Whole requests -/

section Whole

variable (w : World) (x : String) (http : HttpDefaults) (req : CompiledRequest)

def requestEpochs (relative : Bool) : List (List Field) :=
  let looks := fieldLooks w x http req
  let messages := (List.range (frames req).length).map fun k => looks (.frame k)
  Cache.extendLast (((earlyFields relative).flatMap looks ++ messages.headD []) :: messages.tail)
    (lateFields.flatMap looks)

variable {w x http req}

theorem nodup_earlyFields : ∀ relative, (earlyFields relative).Nodup := by
  decide

theorem not_early_of_late : ∀ f ∈ lateFields, ∀ relative, f ∉ earlyFields relative := by
  decide

theorem frame_not_early (k : ℕ) (relative : Bool) : .frame k ∉ earlyFields relative := by
  cases relative <;> simp [earlyFields]

theorem frame_not_late (k : ℕ) : .frame k ∉ lateFields := by
  simp [lateFields]

theorem cacheOf_prepare (hx : w.data.isOnDemand x = true) {prepared : PreparedRequest}
    (h : Gives (prepare w http req) (s.beginRequest w) prepared t) :
    cacheOf x t = ({} : Cache Field).epochs
      (requestEpochs w x http req (relativeUrl w req (s.beginRequest w))) ∧ Consistent x t := by
  obtain ⟨messages, u, u', hbefore, hmessages, hafter⟩ := does_prepare (traces_looked w x) h
  have hunused : ∀ g, (∀ r, g ∉ earlyFields r) → u.evals g = 0 := by
    intro g hg
    rw [hbefore.evals]
    exact foldl_bump_fields (hg _)
  have hframed := framed_renderMessages hx (frames req) hmessages fun j =>
    hunused (.frame j) (frame_not_early j)
  have hlate : ∀ f ∈ lateFields, u'.evals f = 0 := by
    intro f hf
    rw [hframed.evals f fun j hj => frame_not_late j (hj ▸ hf)]
    exact hunused f (not_early_of_late f hf)
  refine ⟨?_, hafter.consistent (hframed.consistent (hbefore.consistent
    (consistent_beginRequest s)))⟩
  have hearly : callLooks w x (s.beginRequest w).evals ((earlyFields
      (relativeUrl w req (s.beginRequest w))).flatMap (callsOf http req)) =
      (earlyFields (relativeUrl w req (s.beginRequest w))).flatMap (fieldLooks w x http req) :=
    callLooks_fields (nodup_earlyFields _) fun _ _ => rfl
  rw [hafter.cache, callLooks_fields (by decide) hlate, hframed.cache, hbefore.cache,
    cacheOf_beginRequest hx, hearly, requestEpochs, frameLooks_frames,
    ← Cache.looks_epochs _ (cons_ne_nil _ _)]
  congr 1
  cases (List.range (frames req).length).map fun k => fieldLooks w x http req (.frame k) with
  | nil => exact (congrArg _ (append_nil _)).symm
  | cons first rest =>
    dsimp only
    rw [← Cache.looks_append]
    rfl

/-! ## Where a part is rendered -/

def RenderedIn (req : CompiledRequest) (relative : Bool) (i : ℕ) (f : Field) : Prop :=
  i = 0 ∧ f ∈ earlyFields relative ∨ f = .frame i ∧ i < (frames req).length ∨
    i + 1 = max 1 (frames req).length ∧ f ∈ lateFields

theorem lt_of_reads_frame (h : Reads w x http req (.frame k)) : k < (frames req).length := by
  by_contra hk
  have hnone : (frames req)[k]? = none := getElem?_eq_none (by omega)
  simp [Reads, expressionsOf, hnone, sources] at h

theorem mem_flatMap_fieldLooks :
    f ∈ fields.flatMap (fieldLooks w x http req) ↔ Reads w x http req f ∧ f ∈ fields := by
  simp only [mem_flatMap, mem_fieldLooks]
  constructor
  · rintro ⟨g, hg, rfl, hreads⟩
    exact ⟨hreads, hg⟩
  · rintro ⟨hreads, hf⟩
    exact ⟨f, hf, rfl, hreads⟩

theorem getElem?_cons_headD {α : Type} (g : ℕ → List α) (before : List α) (n i : ℕ) :
    ((before ++ ((List.range n).map g).headD []) :: ((List.range n).map g).tail)[i]? =
      if i < max 1 n then some ((if i = 0 then before else []) ++ if i < n then g i else [])
      else none := by
  cases i with
  | zero => cases n <;> simp [range_succ_eq_map]
  | succ i =>
    have hlt : i + 1 < max 1 n ↔ i + 1 < n := by omega
    rw [getElem?_cons_succ, getElem?_tail, getElem?_map, if_neg (Nat.succ_ne_zero i), nil_append]
    by_cases hi : i + 1 < n
    · simp [hi, hlt]
    · simp [hi, hlt]

variable {relative : Bool} {i : ℕ}

theorem mem_requestEpochs :
    (∃ fs, (requestEpochs w x http req relative)[i]? = some fs ∧ f ∈ fs) ↔
      Reads w x http req f ∧ RenderedIn req relative i f := by
  unfold requestEpochs RenderedIn
  have hlength : (((earlyFields relative).flatMap (fieldLooks w x http req) ++
      ((List.range (frames req).length).map fun k => fieldLooks w x http req (.frame k)).headD []) ::
      ((List.range (frames req).length).map fun k => fieldLooks w x http req (.frame k)).tail).length =
      max 1 (frames req).length := by
    rw [length_cons, length_tail, length_map, length_range]
    omega
  dsimp only
  rw [Cache.getElem?_extendLast, getElem?_cons_headD, hlength]
  generalize hn : (frames req).length = n
  by_cases hi : i < max 1 n
  · rw [if_pos hi, Option.map_some]
    simp only [Option.some.injEq, exists_eq_left']
    have hearly :
        f ∈ (if i = 0 then (earlyFields relative).flatMap (fieldLooks w x http req) else []) ↔
        Reads w x http req f ∧ i = 0 ∧ f ∈ earlyFields relative := by
      split_ifs with h0
      · rw [mem_flatMap_fieldLooks]
        simp [h0]
      · simp [h0]
    have hframe : f ∈ (if i < n then fieldLooks w x http req (.frame i) else []) ↔
        Reads w x http req f ∧ f = .frame i ∧ i < n := by
      split_ifs with hin
      · rw [mem_fieldLooks]
        constructor
        · rintro ⟨rfl, hreads⟩
          exact ⟨hreads, rfl, hin⟩
        · rintro ⟨hreads, rfl, -⟩
          exact ⟨rfl, hreads⟩
      · simp [hin]
    by_cases hlast : i + 1 = max 1 n
    · rw [if_pos hlast, mem_append, mem_append, hearly, hframe, mem_flatMap_fieldLooks,
        ← and_or_left, ← and_or_left, or_assoc]
      simp only [hlast, true_and]
    · rw [if_neg hlast, mem_append, hearly, hframe, ← and_or_left]
      simp only [hlast, false_and, or_false]
  · rw [if_neg hi]
    have hnone : ¬ (i = 0 ∧ f ∈ earlyFields relative ∨ f = .frame i ∧ i < n ∨
        i + 1 = max 1 n ∧ f ∈ lateFields) := by
      rintro (⟨rfl, -⟩ | ⟨-, hin⟩ | ⟨hlast, -⟩) <;> omega
    simp [hnone]

/-! ## Agreement -/

/-- The message that a part belongs to, the parts of the request itself belonging to the first. -/
def Field.messageOf : Field → Option ℕ
  | .url | .base | .params | .headers | .body | .metadata | .message | .name => some 0
  | .frame k => some k
  | .ws | .socket | .sql | .plugin => none

/-- Every message has one row of the source, a new one for every message; as long as no message does
without the source, the row of a message is that of its number. -/
structure RowsAgree (x : String) (log : List Lookup) : Prop where
  same : ∀ a ∈ log, ∀ b ∈ log, a.source = x → b.source = x → ∀ k, a.field.messageOf = some k →
    b.field.messageOf = some k → a.number = b.number ∧ a.row = b.row
  fresh : ∀ a ∈ log, ∀ b ∈ log, a.source = x → b.source = x → ∀ j k, j < k →
    a.field.messageOf = some j → b.field.messageOf = some k → a.number < b.number
  numbered : ∀ a ∈ log, a.source = x → ∀ k, a.field = .frame k →
    (∀ i ≤ k, ∃ b ∈ log, b.source = x ∧ b.field.messageOf = some i) → a.number = k + 1

/-- The parts after the messages do not refer to the source if a message or a part before them does. -/
def Apart (w : World) (x : String) (http : HttpDefaults) (req : CompiledRequest)
    (relative : Bool) : Prop :=
  ∀ f ∈ lateFields, f.messageOf = some 0 → Reads w x http req f →
    ∀ g, g.messageOf.isSome = true → g ∈ earlyFields relative ∨ (∃ k, g = .frame k) →
      ¬ Reads w x http req g

theorem messageOf_of_late : ∀ f ∈ lateFields, ∀ k, f.messageOf = some k → k = 0 := by
  simp [lateFields, Field.messageOf]

theorem messageOf_of_early (hf : f ∈ earlyFields relative) (hk : f.messageOf = some k) : k = 0 := by
  have hall : ∀ r, ∀ f ∈ earlyFields r, f.messageOf = none ∨ f.messageOf = some 0 := by decide
  rcases hall relative f hf with h | h
  · rw [h] at hk
    cases hk
  · rw [h] at hk
    exact (Option.some.inj hk).symm

section Agreement

variable {prepared : PreparedRequest}

theorem log_prepare (hx : w.data.isOnDemand x = true)
    (h : Gives (prepare w http req) (s.beginRequest w) prepared t) {m : ℕ} :
    (∃ a ∈ t.log, a.source = x ∧ a.field = f ∧ a.number = m) ↔
      ∃ i, Reads w x http req f ∧ RenderedIn req (relativeUrl w req (s.beginRequest w)) i f ∧
        m = Cache.fetches (requestEpochs w x http req (relativeUrl w req (s.beginRequest w))) i := by
  have hlog : (∃ a ∈ t.log, a.source = x ∧ a.field = f ∧ a.number = m) ↔
      (f, m) ∈ (cacheOf x t).log := by
    simp only [cacheOf, mem_map, mem_filter, decide_eq_true_eq, Prod.mk.injEq, and_assoc]
  rw [hlog, (cacheOf_prepare hx h).1, Cache.mem_log_epochs]
  constructor
  · rintro (hnil | ⟨i, fs, hfs, hf, hm⟩)
    · cases hnil
    · obtain ⟨hreads, hin⟩ := mem_requestEpochs.1 ⟨fs, hfs, hf⟩
      exact ⟨i, hreads, hin, hm.trans (Nat.zero_add _)⟩
  · rintro ⟨i, hreads, hin, hm⟩
    obtain ⟨fs, hfs, hf⟩ := mem_requestEpochs.2 ⟨hreads, hin⟩
    exact .inr ⟨i, fs, hfs, hf, hm.trans (Nat.zero_add _).symm⟩

theorem epoch_ne_nil (hreads : Reads w x http req f) (hin : RenderedIn req relative i f) :
    ∃ fs, (requestEpochs w x http req relative)[i]? = some fs ∧ fs ≠ [] := by
  obtain ⟨fs, hfs, hf⟩ := mem_requestEpochs.2 ⟨hreads, hin⟩
  exact ⟨fs, hfs, ne_nil_of_mem hf⟩

section

variable (hx : w.data.isOnDemand x = true)
  (h : Gives (prepare w http req) (s.beginRequest w) prepared t)
include hx h

theorem rowsAgree_of_epochs
    (hepoch : ∀ f i k, Reads w x http req f →
      RenderedIn req (relativeUrl w req (s.beginRequest w)) i f → f.messageOf = some k → i = k) :
    RowsAgree x t.log := by
  have hlook : ∀ a ∈ t.log, a.source = x → ∀ k, a.field.messageOf = some k →
      Reads w x http req a.field ∧
        RenderedIn req (relativeUrl w req (s.beginRequest w)) k a.field ∧ a.number =
          Cache.fetches (requestEpochs w x http req (relativeUrl w req (s.beginRequest w))) k := by
    intro a ha hsource k hk
    obtain ⟨i, hreads, hin, hm⟩ := (log_prepare hx h).1 ⟨a, ha, hsource, rfl, rfl⟩
    obtain rfl := hepoch _ i k hreads hin hk
    exact ⟨hreads, hin, hm⟩
  refine ⟨fun a ha b hb has hbs k hak hbk => ?_, fun a ha b hb has hbs j k hjk haj hbk => ?_,
    fun a ha has k hk hall => ?_⟩
  · have hnumber := (hlook a ha has k hak).2.2.trans (hlook b hb hbs k hbk).2.2.symm
    exact ⟨hnumber, (cacheOf_prepare hx h).2.same ha hb has hbs hnumber⟩
  · obtain ⟨hreads, hin, hm⟩ := hlook b hb hbs k hbk
    obtain ⟨fs, hfs, hne⟩ := epoch_ne_nil hreads hin
    rw [(hlook a ha has j haj).2.2, hm]
    exact Cache.fetches_lt hjk hfs hne
  · rw [(hlook a ha has k (by rw [hk]; rfl)).2.2]
    refine Cache.fetches_of_all fun i hi => ?_
    obtain ⟨b, hb, hbs, hbi⟩ := hall i hi
    obtain ⟨hreads, hin, -⟩ := hlook b hb hbs i hbi
    exact epoch_ne_nil hreads hin

theorem rowsAgree_of_late
    (hlate : ∀ f, Reads w x http req f → f.messageOf.isSome = true →
      f ∉ earlyFields (relativeUrl w req (s.beginRequest w)) ∧ ∀ k, f ≠ .frame k) :
    RowsAgree x t.log := by
  have hlook : ∀ a ∈ t.log, a.source = x → ∀ k, a.field.messageOf = some k →
      a.field ∈ lateFields ∧ ∀ i, i + 1 = max 1 (frames req).length → a.number =
        Cache.fetches (requestEpochs w x http req (relativeUrl w req (s.beginRequest w))) i := by
    intro a ha hsource k hk
    obtain ⟨i, hreads, hin, hm⟩ := (log_prepare hx h).1 ⟨a, ha, hsource, rfl, rfl⟩
    obtain ⟨hearly, hframe⟩ := hlate a.field hreads (by rw [hk]; rfl)
    obtain ⟨-, hin⟩ | ⟨hin, -⟩ | ⟨hi, hin⟩ := hin
    · cases hearly hin
    · exact absurd hin (hframe i)
    · refine ⟨hin, fun j hj => ?_⟩
      obtain rfl : j = i := by omega
      exact hm
  refine ⟨fun a ha b hb has hbs k hak hbk => ?_, fun a ha b hb has hbs j k hjk haj hbk => ?_,
    fun a ha has k hk hall => ?_⟩
  · obtain ⟨i, hi⟩ : ∃ i, i + 1 = max 1 (frames req).length :=
      ⟨max 1 (frames req).length - 1, by omega⟩
    have hnumber := ((hlook a ha has k hak).2 i hi).trans ((hlook b hb hbs k hbk).2 i hi).symm
    exact ⟨hnumber, (cacheOf_prepare hx h).2.same ha hb has hbs hnumber⟩
  · have hzero := messageOf_of_late _ (hlook b hb hbs k hbk).1 k hbk
    omega
  · have hmem := (hlook a ha has k (by rw [hk]; rfl)).1
    rw [hk] at hmem
    exact absurd hmem (frame_not_late k)

end

theorem epoch_of_length_le (hlength : (frames req).length ≤ 1) (hin : RenderedIn req relative i f)
    (hk : f.messageOf = some k) : i = k := by
  obtain ⟨rfl, hf⟩ | ⟨rfl, -⟩ | ⟨hi, hf⟩ := hin
  · exact (messageOf_of_early hf hk).symm
  · exact Option.some.inj hk
  · have hzero := messageOf_of_late f hf k hk
    omega

/-- A part after several messages has neither the row of a part before them nor that of a message. -/
theorem apart_of_rowsAgree (hx : w.data.isOnDemand x = true)
    (h : Gives (prepare w http req) (s.beginRequest w) prepared t)
    (hlength : 1 < (frames req).length) (hagree : RowsAgree x t.log) :
    Apart w x http req (relativeUrl w req (s.beginRequest w)) := by
  intro f hf hmessage hreads g hg hwhere hreads'
  obtain ⟨n, hn⟩ : ∃ n, (frames req).length = n + 2 := ⟨(frames req).length - 2, by omega⟩
  have hin : RenderedIn req (relativeUrl w req (s.beginRequest w)) (n + 1) f :=
    .inr (.inr ⟨by omega, hf⟩)
  obtain ⟨a, ha, has, haf, ham⟩ := (log_prepare hx h).2 ⟨n + 1, hreads, hin, rfl⟩
  obtain ⟨fs, hfs, hne⟩ := epoch_ne_nil hreads hin
  have hfirst : RenderedIn req (relativeUrl w req (s.beginRequest w)) 0 g → g.messageOf = some 0 →
      False := by
    intro hin' hg'
    obtain ⟨b, hb, hbs, hbg, hbm⟩ := (log_prepare hx h).2 ⟨0, hreads', hin', rfl⟩
    have hsame := (hagree.same a ha b hb has hbs 0 (haf ▸ hmessage) (hbg ▸ hg')).1
    have hlt := Cache.fetches_lt (show 0 < n + 1 by omega) hfs hne
    omega
  obtain hearly | ⟨k, rfl⟩ := hwhere
  · obtain ⟨k, hk⟩ := Option.isSome_iff_exists.1 hg
    exact hfirst (.inl ⟨rfl, hearly⟩) (messageOf_of_early hearly hk ▸ hk)
  · have hk := lt_of_reads_frame hreads'
    rcases Nat.eq_zero_or_pos k with rfl | hpos
    · exact hfirst (.inr (.inl ⟨rfl, hk⟩)) rfl
    · obtain ⟨b, hb, hbs, hbg, hbm⟩ := (log_prepare hx h).2 ⟨k, hreads', .inr (.inl ⟨rfl, hk⟩), rfl⟩
      have hfresh := hagree.fresh a ha b hb has hbs 0 k hpos (haf ▸ hmessage) (hbg ▸ rfl)
      have hle : Cache.fetches (requestEpochs w x http req (relativeUrl w req (s.beginRequest w))) k ≤
          Cache.fetches (requestEpochs w x http req (relativeUrl w req (s.beginRequest w))) (n + 1) :=
        Cache.fetches_mono (by omega)
      omega

/-- The rows of a prepared request agree as long as it has at most one message, or the parts that are
rendered after the messages refer to sources of their own. -/
theorem rows_agree_iff (h : Gives (prepare w http req) (s.beginRequest w) prepared t) :
    (∀ x, w.data.isOnDemand x = true → RowsAgree x t.log) ↔
      (frames req).length ≤ 1 ∨ ∀ x, w.data.isOnDemand x = true →
        Apart w x http req (relativeUrl w req (s.beginRequest w)) := by
  constructor
  · intro hagree
    rcases Nat.lt_or_ge 1 (frames req).length with hlength | hlength
    · exact .inr fun x hx => apart_of_rowsAgree hx h hlength (hagree x hx)
    · exact .inl hlength
  · rintro (hlength | hapart) x hx
    · exact rowsAgree_of_epochs hx h fun f i k _ hin hk => epoch_of_length_le hlength hin hk
    · by_cases hlate : ∃ f ∈ lateFields, f.messageOf = some 0 ∧ Reads w x http req f
      · obtain ⟨f, hf, hmessage, hreads⟩ := hlate
        refine rowsAgree_of_late hx h fun g hg hsome => ⟨fun hearly => ?_, fun k hk => ?_⟩
        · exact hapart x hx f hf hmessage hreads g hsome (.inl hearly) hg
        · exact hapart x hx f hf hmessage hreads g hsome (.inr ⟨k, hk⟩) hg
      · refine rowsAgree_of_epochs hx h fun f i k hreads hin hk => ?_
        obtain ⟨rfl, hf⟩ | ⟨rfl, -⟩ | ⟨-, hf⟩ := hin
        · exact (messageOf_of_early hf hk).symm
        · exact Option.some.inj hk
        · exact absurd ⟨f, hf, messageOf_of_late f hf k hk ▸ hk, hreads⟩ hlate

end Agreement

end Whole

/-! ## An instance -/

section Instance

/-- A test with a plugin that numbers its rows. -/
def feederWorld : World where
  lib := {
    print := fun _ => ""
    toVec := fun _ => []
    fromStr := fun _ => none
    generate := fun _ => .error ""
    fromUtf8Lossy := fun _ => ""
    decodeBase64 := fun _ => .error "" }
  data := ⟨[("signed", .plugin false)]⟩
  supply n := .unshuffled (.ok (.row [("tx", toString n)]))

def signature : Template := ⟨[.expr "data.signed.tx"], ""⟩

def submit (url : Template) (metadata : List (String × Template)) : CompiledRequest where
  displayName := "submit"
  protocol := "grpc"
  method := "POST"
  url := url
  grpc := some {
    service := "Tx"
    method := "Submit"
    messages := .dynamic [.string signature] 2
    metadata := metadata }

def preparedSession (req : CompiledRequest) : Option Session :=
  match (prepare feederWorld {} req).run.run (Session.beginRequest feederWorld {}) with
  | (.ok _, t) => some t
  | (.error _, _) => none

theorem gives_of_preparedSession {req : CompiledRequest} (h : preparedSession req = some t) :
    ∃ prepared,
      Gives (prepare feederWorld {} req) (Session.beginRequest feederWorld {}) prepared t := by
  unfold preparedSession at h
  split at h
  · rename_i prepared _ hrun
    cases h
    exact ⟨prepared, hrun⟩
  · cases h

def lookupsOf (t : Session) : List (Field × String × ℕ) :=
  t.log.map fun a => (a.field, a.source, a.number)

theorem mem_log_of_lookupsOf {x : String} {m : ℕ} (h : (f, x, m) ∈ lookupsOf t) :
    ∃ a ∈ t.log, a.field = f ∧ a.source = x ∧ a.number = m := by
  obtain ⟨a, ha, hlookup⟩ := mem_map.1 h
  simp only [Prod.mk.injEq] at hlookup
  exact ⟨a, ha, hlookup⟩

/-- The first message has the row of the URL and the second one has its own. -/
theorem rows_agree_two_messages : ∃ t, preparedSession (submit signature []) = some t ∧
    lookupsOf t = [(.url, "signed", 1), (.frame 0, "signed", 1), (.frame 1, "signed", 2)] ∧
      RowsAgree "signed" t.log := by
  have hlog : (preparedSession (submit signature [])).map lookupsOf =
      some [(.url, "signed", 1), (.frame 0, "signed", 1), (.frame 1, "signed", 2)] := by
    decide +kernel
  obtain ⟨t, ht, hlog⟩ := Option.map_eq_some_iff.1 hlog
  obtain ⟨prepared, hgives⟩ := gives_of_preparedSession ht
  have hnone : ∀ f ∈ lateFields, expressionsOf {} (submit signature []) f = [] := by
    decide +kernel
  refine ⟨t, ht, hlog, (rows_agree_iff hgives).2 (.inr fun x _ f hf _ hreads => ?_) "signed"
    (by decide)⟩
  rw [Reads, hnone f hf] at hreads
  simp [sources] at hreads

/-- The metadata is signed with the row of the second message, and the URL with that of the first. -/
theorem metadata_of_last_message :
    ∃ t, preparedSession (submit signature [("x-signature", signature)]) = some t ∧
      lookupsOf t = [(.url, "signed", 1), (.frame 0, "signed", 1), (.frame 1, "signed", 2),
        (.metadata, "signed", 2)] ∧ feederWorld.data.isOnDemand "signed" = true ∧
      ¬ RowsAgree "signed" t.log := by
  have hlog : (preparedSession (submit signature [("x-signature", signature)])).map lookupsOf =
      some [(.url, "signed", 1), (.frame 0, "signed", 1), (.frame 1, "signed", 2),
        (.metadata, "signed", 2)] := by decide +kernel
  obtain ⟨t, ht, hlog⟩ := Option.map_eq_some_iff.1 hlog
  refine ⟨t, ht, hlog, by decide, fun hagree => ?_⟩
  obtain ⟨a, ha, haf, has, han⟩ :=
    mem_log_of_lookupsOf (show (.url, "signed", 1) ∈ lookupsOf t by rw [hlog]; decide)
  obtain ⟨b, hb, hbf, hbs, hbn⟩ :=
    mem_log_of_lookupsOf (show (.metadata, "signed", 2) ∈ lookupsOf t by rw [hlog]; decide)
  have hsame := (hagree.same a ha b hb has hbs 0 (by rw [haf]; rfl) (by rw [hbf]; rfl)).1
  omega

end Instance

end Loadr.Request
