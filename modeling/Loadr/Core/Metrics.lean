import Loadr.Lib.F64

/-!
# Metrics

The kinds of metrics and the samples that go to an aggregator.  A tag set is the list of its entries
in the order of the keys.  Of a sample only its timestamp is left out, which no aggregate reads.
-/

namespace Loadr.Core

inductive MetricKind
  | counter
  | gauge
  | rate
  | trend
deriving DecidableEq

abbrev Tags := List (String × String)

structure SeriesKey where
  metric : String
  tags : Tags
deriving DecidableEq

structure Sample where
  metric : String
  kind : MetricKind
  value : F64
  tags : Tags := []

def Sample.key (s : Sample) : SeriesKey := ⟨s.metric, s.tags⟩

/-- Gauges whose value for the fleet is the sum of the values of the agents. -/
def isAdditiveGauge (metric : String) : Bool := metric = "vus" || metric = "vus_max"

end Loadr.Core
