/-
# Bursts of events

A debouncer may be called in any order and with any times, also with ones that run
backwards. What it holds is told by the calls behind the last taking alone: the last
event is the one recorded last, whatever its time, and as many are waiting as were
recorded. So each event is taken once or still waiting, and asking whether a burst has
settled leaves no trace.
-/

import Deadwood.Watch
import Mathlib.Algebra.Ring.Nat
import Mathlib.Data.List.Induction

namespace Deadwood.Watch

/-! ## Calls -/

/-- A call to a debouncer. -/
inductive Call
  | record (now : Nat)
  | ready (now : Nat)
  | take
deriving DecidableEq, Repr

namespace Call

/-- The time of an event that is recorded. -/
def recorded? : Call → Option Nat
  | .record now => some now
  | .ready _ => none
  | .take => none

/-- Whether a call only asks. -/
def asks : Call → Bool
  | .record _ => false
  | .ready _ => true
  | .take => false

/-- The times of the events that some calls record. -/
def times (calls : List Call) : List Nat :=
  calls.filterMap recorded?

/-- The calls behind the last taking. -/
def sinceTake (calls : List Call) : List Call :=
  (calls.reverse.takeWhile (· != .take)).reverse

theorem mem_times {calls : List Call} {now : Nat} :
    now ∈ times calls ↔ .record now ∈ calls := by
  rw [times, List.mem_filterMap]
  constructor
  · rintro ⟨call, hcall, hnow⟩
    cases call with
    | record time => rwa [← Option.some.inj hnow]
    | ready time => cases hnow
    | take => cases hnow
  · exact fun hcall => ⟨_, hcall, rfl⟩

@[simp] theorem sinceTake_take (calls : List Call) : sinceTake (calls ++ [.take]) = [] := by
  simp [sinceTake]

theorem sinceTake_concat (calls : List Call) {call : Call} (hcall : call ≠ .take) :
    sinceTake (calls ++ [call]) = sinceTake calls ++ [call] := by
  simp [sinceTake, hcall]

theorem sinceTake_suffix (calls : List Call) : sinceTake calls <:+ calls := by
  rw [sinceTake, ← List.reverse_prefix, List.reverse_reverse]
  exact List.takeWhile_prefix _

end Call

/-- What a call answers. -/
inductive Answer
  | noted
  | told (ready : Bool)
  | taken (count : Nat)
deriving DecidableEq, Repr

namespace Answer

/-- How many events an answer hands over. -/
def count : Answer → Nat
  | .noted => 0
  | .told _ => 0
  | .taken count => count

/-- Whether an answer is one to a question. -/
def tells : Answer → Bool
  | .noted => false
  | .told _ => true
  | .taken _ => false

end Answer

namespace Debouncer

/-- One call. -/
def call (debouncer : Debouncer) : Call → Answer × Debouncer
  | .record now => (.noted, debouncer.record now)
  | .ready now => (.told (debouncer.ready now), debouncer)
  | .take =>
    let (count, debouncer) := debouncer.take
    (.taken count, debouncer)

/-- One call after the other. -/
def run (debouncer : Debouncer) : List Call → List Answer × Debouncer
  | [] => ([], debouncer)
  | call :: calls =>
    let (answer, debouncer) := debouncer.call call
    let (answers, debouncer) := debouncer.run calls
    (answer :: answers, debouncer)

theorem run_cons (debouncer : Debouncer) (call : Call) (calls : List Call) :
    debouncer.run (call :: calls) =
      ((debouncer.call call).1 :: ((debouncer.call call).2.run calls).1,
        ((debouncer.call call).2.run calls).2) :=
  rfl

theorem run_concat (debouncer : Debouncer) (calls : List Call) (call : Call) :
    (debouncer.run (calls ++ [call])).2 = ((debouncer.run calls).2.call call).2 := by
  induction calls generalizing debouncer with
  | nil => rfl
  | cons first calls ih => rw [List.cons_append, run_cons, ih, run_cons]

/-! ## No event is lost or counted twice -/

/-- What a call records is waiting then, and what it hands over waits no more. -/
theorem count_call (debouncer : Debouncer) (call : Call) :
    (debouncer.call call).1.count + (debouncer.call call).2.coalesced =
      debouncer.coalesced + (Call.times [call]).length := by
  cases call with
  | record now => exact Nat.zero_add _
  | ready now => exact Nat.zero_add _
  | take => rfl

theorem sum_count_run (debouncer : Debouncer) (calls : List Call) :
    ((debouncer.run calls).1.map Answer.count).sum + (debouncer.run calls).2.coalesced =
      debouncer.coalesced + (Call.times calls).length := by
  induction calls generalizing debouncer with
  | nil => exact Nat.zero_add _
  | cons call calls ih =>
    have hcall := count_call debouncer call
    have hcalls := ih (debouncer.call call).2
    have htimes : (Call.times (call :: calls)).length =
        (Call.times [call]).length + (Call.times calls).length := by
      rw [← List.singleton_append, Call.times, List.filterMap_append, List.length_append]
      rfl
    simp only [run_cons, List.map_cons, List.sum_cons, htimes]
    omega

/-! ## What a debouncer holds -/

/-- A debouncer with which events wait that came at some times. -/
def holding (window : Nat) (times : List Nat) : Debouncer where
  window := window
  lastEvent := times.getLast?
  coalesced := times.length

/-- One call more, behind calls that left those events waiting that were recorded since the
last taking. -/
theorem call_holding (window : Nat) (calls : List Call) (call : Call) :
    ((holding window (Call.times (Call.sinceTake calls))).call call).2 =
      holding window (Call.times (Call.sinceTake (calls ++ [call]))) := by
  cases call with
  | record now =>
    have htimes : Call.times (Call.sinceTake (calls ++ [.record now])) =
        Call.times (Call.sinceTake calls) ++ [now] := by
      rw [Call.sinceTake_concat calls (by simp), Call.times, List.filterMap_append]
      rfl
    rw [htimes]
    simp [call, record, holding]
  | ready now =>
    have htimes : Call.times (Call.sinceTake (calls ++ [.ready now])) =
        Call.times (Call.sinceTake calls) := by
      rw [Call.sinceTake_concat calls (by simp), Call.times, List.filterMap_append]
      exact List.append_nil _
    rw [htimes]
    rfl
  | take =>
    rw [Call.sinceTake_take]
    rfl

/-- The events that were recorded since the last taking wait. -/
theorem run_eq_holding (window : Nat) (calls : List Call) :
    (run { window } calls).2 = holding window (Call.times (Call.sinceTake calls)) := by
  induction calls using List.reverseRecOn with
  | nil => rfl
  | append_singleton calls call ih => rw [run_concat, ih, call_holding]

theorem isPending_holding {window : Nat} {times : List Nat} :
    (holding window times).isPending = true ↔ times ≠ [] := by
  simp [isPending, holding]

/-- A burst has settled if the window has passed since the event recorded last. No time
passes until an earlier moment, which is enough for an empty window. -/
theorem ready_holding {window now : Nat} {times : List Nat} :
    (holding window times).ready now = true ↔ ∃ last, times.getLast? = some last ∧
      (last + window ≤ now ∨ now < last ∧ window = 0) := by
  rw [ready, Option.any_eq_true]
  refine exists_congr fun last => and_congr_right fun _ => ?_
  rw [decide_eq_true_eq]
  show window ≤ now - last ↔ _
  omega

/-- The event recorded last is the last one that waits, if any does. -/
theorem getLast?_times_sinceTake {calls : List Call}
    (hwaiting : Call.times (Call.sinceTake calls) ≠ []) :
    (Call.times (Call.sinceTake calls)).getLast? = (Call.times calls).getLast? := by
  obtain ⟨front, hfront⟩ := Call.sinceTake_suffix calls
  have htimes : Call.times calls = Call.times front ++ Call.times (Call.sinceTake calls) := by
    conv_lhs => rw [← hfront]
    exact List.filterMap_append
  rw [htimes, List.getLast?_append, List.getLast?_eq_some_getLast hwaiting, Option.some_or]

/-! ## Questions -/

/-- Without the questions, a debouncer ends up the same and answers the other calls the
same. -/
theorem run_filter_asks (debouncer : Debouncer) (calls : List Call) :
    debouncer.run (calls.filter (!·.asks)) =
      ((debouncer.run calls).1.filter (!·.tells), (debouncer.run calls).2) := by
  induction calls generalizing debouncer with
  | nil => rfl
  | cons call calls ih =>
    cases call with
    | record now =>
      rw [List.filter_cons_of_pos rfl, run_cons, ih, run_cons]
      rfl
    | ready now =>
      rw [List.filter_cons_of_neg (by simp [Call.asks]), ih, run_cons]
      rfl
    | take =>
      rw [List.filter_cons_of_pos rfl, run_cons, ih, run_cons]
      rfl

/-! ## The whole run -/

/-- Whatever the window and the calls are, at whatever times, behind them
* the events that were taken and those that wait are as many as were recorded,
* events wait exactly if one was recorded since the last taking,
* a burst has settled exactly if events wait and the window has passed since the event
  recorded last, where a moment before that event is late enough for an empty window only,
* all is as if no question had been asked. -/
theorem run_accounts (window : Nat) (calls : List Call) :
    (((run { window } calls).1.map Answer.count).sum + (run { window } calls).2.coalesced =
      (Call.times calls).length) ∧
    ((run { window } calls).2.isPending = true ↔
      ∃ now, .record now ∈ Call.sinceTake calls) ∧
    (∀ now, (run { window } calls).2.ready now = true ↔
      (run { window } calls).2.isPending = true ∧
      ∃ last, (Call.times calls).getLast? = some last ∧
        (last + window ≤ now ∨ now < last ∧ window = 0)) ∧
    run { window } (calls.filter (!·.asks)) =
      ((run { window } calls).1.filter (!·.tells), (run { window } calls).2) := by
  refine ⟨?_, ?_, fun now => ?_, run_filter_asks _ calls⟩
  · rw [sum_count_run]
    exact Nat.zero_add _
  · simp only [run_eq_holding, isPending_holding, ← Call.mem_times]
    exact ⟨List.exists_mem_of_ne_nil _, fun ⟨now, hnow⟩ => List.ne_nil_of_mem hnow⟩
  · rw [run_eq_holding, isPending_holding, ready_holding]
    constructor
    · rintro ⟨last, hlast, hpassed⟩
      have hwaiting : Call.times (Call.sinceTake calls) ≠ [] := by
        intro hnone
        simp [hnone] at hlast
      exact ⟨hwaiting, last, getLast?_times_sinceTake hwaiting ▸ hlast, hpassed⟩
    · rintro ⟨hwaiting, last, hlast, hpassed⟩
      exact ⟨last, (getLast?_times_sinceTake hwaiting).trans hlast, hpassed⟩

/-- The last of two events came at the earlier time, and it is the one that counts. -/
example : (run { window := 200 }
    [.record 900, .record 100, .ready 299, .ready 300, .take, .ready 900]).1 =
      [.noted, .noted, .told false, .told true, .taken 2, .told false] := by
  decide

end Debouncer

end Deadwood.Watch
