import Mathlib.Data.Int.Order.Basic
import BullMQ.Sql.Table

/-!
# Metrics in PostgreSQL

A row of `metrics` counts the finished jobs of a queue, by kind, and keeps the number of jobs per
minute, the newest minute first. `collectMetrics` records one finished job.
-/

namespace BullMQ.Postgres

open Sql

/-- A row of `metrics`. -/
structure MetricsRow where
  count : ℤ := 0
  prevTs : Option ℤ := none
  prevCount : ℤ := 0
  data : List ℤ := []
  deriving DecidableEq, Repr

/-- The data points after a pause of `n` minutes: those of the skipped minutes, the one of the
minute before and the older ones, cut to `max`. -/
def MetricsRow.points (row : MetricsRow) (n delta max : ℤ) : List ℤ :=
  let data :=
    if 1 < n then List.replicate (n - 1).toNat 0 ++ [delta] ++ row.data else [delta] ++ row.data
  data.take max.toNat

/-- `collect_metrics`. -/
def collectMetrics (queue kind : String) (max ts : ℤ)
    (metrics : Table (String × String) MetricsRow) :
    Table (String × String) MetricsRow :=
  let metrics := metrics.upsert (queue, kind) ⟨1, none, 0, []⟩ fun row =>
    { row with count := row.count + 1 }
  match metrics.find (queue, kind) with
  | none => metrics
  | some row =>
    let count := row.count - 1
    match row.prevTs with
    | none =>
      -- The first data point only establishes the baseline.
      metrics.updateKey (queue, kind) fun row => { row with prevTs := some ts, prevCount := 0 }
    | some prevTs =>
      let n := min (ts.tdiv 60000 - prevTs.tdiv 60000) max
      if 0 < n then
        let delta := count - row.prevCount
        let data := row.points n delta max
        metrics.updateKey (queue, kind) fun row =>
          { row with data := data, prevCount := count, prevTs := some ts }
      else metrics

end BullMQ.Postgres
