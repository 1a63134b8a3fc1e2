import Quantas.BoostMq.Transport
import Quantas.Lib.Narrowing

/-!
# The reliability summary

A peer writes its counters as 64-bit numbers and the leader adds them up in 64 bits, but reads each one by
`value(key, 0)`, which converts to the `int` of its default. A counter of `2^31` or more is read as another number,
and a run that dropped `2^32` messages is reported as one that dropped none.
-/

namespace Quantas.BoostMq
open Lib.Narrowing (turns)

/-- The counters that the summary adds up. -/
def summedCounters : List String := ["sent", "received_raw", "delivered_to_instream", "dropped_backpressure"]

def counter (key : String) (entry : InterfaceId × Option JsonCounters) : Nat :=
  (entry.2.bind fun transportMetrics => transportMetrics.lookup key).getD 0

def counters (key : String) (peerMetrics : PeerMetrics) : List Nat := peerMetrics.map (counter key)

def exactSummary (peerMetrics : PeerMetrics) : ReliabilitySummary :=
  let sentTotal := (counters "sent" peerMetrics).sum
  let receivedRawTotal := (counters "received_raw" peerMetrics).sum
  let deliveredToInstreamTotal := (counters "delivered_to_instream" peerMetrics).sum
  { sentTotal
    receivedRawTotal
    deliveredToInstreamTotal
    droppedBackpressureTotal := (counters "dropped_backpressure" peerMetrics).sum
    pendingAtShutdownTotal := ((sentTotal : Int) - receivedRawTotal).toNat
    reliable := (∀ entry ∈ peerMetrics, counter "dropped_backpressure" entry = 0) ∧
      receivedRawTotal = deliveredToInstreamTotal }

/-- Every counter is an `int`, or the counters, each rounded to the nearest multiple of `2^32`, add up to `2^64`. -/
def SurvivesNarrowing (counters : List Nat) : Prop :=
  (∀ x ∈ counters, x < 2 ^ 31) ∨ (counters.map (turns (2 ^ 31))).sum = 2 ^ 32

instance (counters : List Nat) : Decidable (SurvivesNarrowing counters) := inferInstanceAs (Decidable (_ ∨ _))

variable {key : String} {peerMetrics : PeerMetrics}

theorem addCounter_eq {total : Nat} (htotal : total < 2 ^ 64) (entry : InterfaceId × Option JsonCounters) :
    (addCounter key total entry : Int) = (total + (counter key entry : Int).bmod (2 ^ 32)) % 2 ^ 64 := by
  obtain ⟨i, metrics⟩ := entry
  cases metrics with
  | none =>
    show (total : Int) = (total + (0 : Int).bmod (2 ^ 32)) % 2 ^ 64
    rw [Int.zero_bmod]
    omega
  | some transportMetrics =>
    have hvalue : transportMetrics.value key = (counter key (i, some transportMetrics) : Int).bmod (2 ^ 32) := by
      unfold JsonCounters.value counter
      rw [Option.bind_some]
      cases transportMetrics.lookup key with
      | none => rfl
      | some x => rfl
    simp only [addCounter, hvalue]
    exact Int.toNat_of_nonneg (Int.emod_nonneg _ (by decide))

theorem total_eq_emod :
    (total key peerMetrics : Int) =
      ((counters key peerMetrics).map fun x : Nat => (x : Int).bmod (2 ^ 32)).sum % 2 ^ 64 := by
  have hfold : ∀ (entries : PeerMetrics) (start : Nat), start < 2 ^ 64 →
      ((entries.foldl (addCounter key) start : Nat) : Int) =
        (start + ((counters key entries).map fun x : Nat => (x : Int).bmod (2 ^ 32)).sum) % 2 ^ 64 := by
    intro entries
    induction entries with
    | nil =>
      intro start hstart
      simp only [List.foldl_nil, counters, List.map_nil, List.sum_nil]
      omega
    | cons entry entries ih =>
      intro start hstart
      have hnext : (addCounter key start entry : Int) = _ := addCounter_eq hstart entry
      rw [counters, List.map_cons, ← counters, List.map_cons, List.sum_cons]
      generalize (counter key entry : Int).bmod (2 ^ 32) = read at hnext ⊢
      rw [List.foldl_cons, ih _ (by omega), hnext]
      omega
  rw [total, hfold peerMetrics 0 (Nat.two_pow_pos 64), Nat.cast_zero, zero_add]

theorem total_eq_sum_iff (hsum : (counters key peerMetrics).sum < 2 ^ 64) :
    total key peerMetrics = (counters key peerMetrics).sum ↔ SurvivesNarrowing (counters key peerMetrics) := by
  have hbelow : (counters key peerMetrics).sum < 2 * 2 ^ 31 * (2 * 2 ^ 31) := by omega
  have hiff := Lib.Narrowing.sum_bmod_emod_eq_iff (by decide) hbelow
  rw [show 2 * 2 ^ 31 = 2 ^ 32 from rfl, show ((2 ^ 32 * 2 ^ 32 : Nat) : Int) = 2 ^ 64 by norm_num] at hiff
  unfold SurvivesNarrowing
  rw [← hiff, ← total_eq_emod, Nat.cast_inj]

/-- **When the reliability summary is exact.** For every map of peer metrics whose counters add up below `2^64`, the
summary has the exact sums, the exact number of pending messages and the exact verdict if and only if each of the
four counters survives the narrowing to `int`. -/
theorem summary_exact_iff (hsums : ∀ key ∈ summedCounters, (counters key peerMetrics).sum < 2 ^ 64) :
    summarizeTransportReliability peerMetrics = exactSummary peerMetrics ↔
      ∀ key ∈ summedCounters, SurvivesNarrowing (counters key peerMetrics) := by
  have hiff : (∀ key ∈ summedCounters, SurvivesNarrowing (counters key peerMetrics)) ↔
      ∀ key ∈ summedCounters, total key peerMetrics = (counters key peerMetrics).sum :=
    forall₂_congr fun key hkey => (total_eq_sum_iff (hsums key hkey)).symm
  rw [hiff]
  constructor
  · intro heq
    simp only [summarizeTransportReliability, exactSummary, ReliabilitySummary.mk.injEq] at heq
    obtain ⟨hsent, hreceived, hdelivered, hdropped, -, -⟩ := heq
    simp only [summedCounters, List.forall_mem_cons]
    exact ⟨hsent, hreceived, hdelivered, hdropped, by simp⟩
  · intro htotals
    simp only [summedCounters, List.forall_mem_cons] at htotals
    obtain ⟨hsent, hreceived, hdelivered, hdropped, -⟩ := htotals
    have hnone : (counters "dropped_backpressure" peerMetrics).sum = 0 ↔
        ∀ entry ∈ peerMetrics, counter "dropped_backpressure" entry = 0 := by
      rw [counters, List.sum_eq_zero_iff, List.forall_mem_map]
    simp only [summarizeTransportReliability, exactSummary, hsent, hreceived, hdelivered, hdropped, hnone,
      ReliabilitySummary.mk.injEq, true_and, and_true]
    split_ifs <;> omega

theorem summary_exact_small :
    let peerMetrics : PeerMetrics :=
      [(0, some (makeTransportMetricsJson { sent := 7, receivedRaw := 3, deliveredToInstream := 3 } 8)),
       (1, some (makeTransportMetricsJson { sent := 1, receivedRaw := 4, deliveredToInstream := 4 } 8))]
    summarizeTransportReliability peerMetrics = exactSummary peerMetrics := by
  intro peerMetrics
  apply (summary_exact_iff _).mpr
  · decide +kernel
  · decide +kernel

/-- `2^32` dropped messages are read as none, and the run is reported as reliable. -/
theorem summary_hides_drops :
    let peerMetrics : PeerMetrics :=
      [(0, some (makeTransportMetricsJson
        { sent := 5, receivedRaw := 5, deliveredToInstream := 5, droppedBackpressure := 2 ^ 32 } 8))]
    (∀ key ∈ summedCounters, (counters key peerMetrics).sum < 2 ^ 64) ∧
      (summarizeTransportReliability peerMetrics).droppedBackpressureTotal = 0 ∧
      (summarizeTransportReliability peerMetrics).reliable = true ∧
      (exactSummary peerMetrics).droppedBackpressureTotal = 2 ^ 32 ∧ (exactSummary peerMetrics).reliable = false := by
  decide +kernel

end Quantas.BoostMq
