import Quantas.BoostMq.Verdict

/-!
# The result of the ready wait

`waitForAllReady` deduplicates, validates, times out and throws in one loop. What it returns depends on the messages
it takes from `mq_barrier` alone: a message that the leader refuses ends the wait with an exception, the first
prefix with all expected ids ends it with the full list, and else the deadline ends it with the ids seen so far.
-/

namespace Quantas.BoostMq

/-- `waitForAllReady` with the messages that it leaves on `mq_barrier`. -/
def readyWait (totalPeers : Nat) :
    List ReadyMessage → Finset InterfaceId → Except String ReadyResult × List ReadyMessage
  | messages, unique =>
    if unique.card < totalPeers then
      match messages with
      | [] => (.ok { readyPeerIds := ascending unique, readyTimedOut := true }, [])
      | .otherSize size :: rest =>
        (.error s!"Invalid ready message size: expected 8 bytes, received {size}", rest)
      | .ready id :: rest =>
        if id < 0 ∨ totalPeers ≤ id.toNat then
          (.error s!"Invalid ready peer ID {id}; expected 0 to {totalPeers - 1}", rest)
        else readyWait totalPeers rest (insert id unique)
    else (.ok { readyPeerIds := ascending unique }, messages)

/-- A message of the wrong size, or an id out of range. -/
def ReadyMessage.Refused (totalPeers : Nat) : ReadyMessage → Prop
  | .ready id => id < 0 ∨ totalPeers ≤ id.toNat
  | .otherSize _ => True

instance (totalPeers : Nat) (m : ReadyMessage) : Decidable (m.Refused totalPeers) := by
  cases m <;> unfold ReadyMessage.Refused <;> infer_instance

def ReadyMessage.validId (totalPeers : Nat) : ReadyMessage → Option InterfaceId
  | .ready id => if id < 0 ∨ totalPeers ≤ id.toNat then none else some id
  | .otherSize _ => none

/-- The distinct valid ids of the messages. -/
def validIds (totalPeers : Nat) (messages : List ReadyMessage) : Finset InterfaceId :=
  (messages.filterMap (·.validId totalPeers)).toFinset

/-- What a call that returns has done: it took `consumed` and left `rest`. -/
structure ReadyReport (totalPeers : Nat) (consumed rest : List ReadyMessage) (result : ReadyResult) : Prop where
  /-- No message was refused. -/
  accepted : ∀ m ∈ consumed, ¬ m.Refused totalPeers
  /-- Before each message that was taken an id was missing. -/
  still_waiting : ∀ pre m post, consumed = pre ++ m :: post → (validIds totalPeers pre).card < totalPeers
  /-- The wait ends with the last id or the last message. -/
  complete_or_all : (validIds totalPeers consumed).card = totalPeers ∨ rest = []
  sorted : result.readyPeerIds.SortedLT
  mem_ids : ∀ id, id ∈ result.readyPeerIds ↔ .ready id ∈ consumed
  timed_out : result.readyTimedOut = true ↔ result.readyPeerIds ≠ expectedPeers totalPeers
  missing : result.readyTimedOut = true →
    findMissingPeers totalPeers result.readyPeerIds =
      (expectedPeers totalPeers).filter fun id => id ∉ result.readyPeerIds

variable {n : Nat}

theorem readyWait_fst (messages : List ReadyMessage) (unique : Finset InterfaceId) :
    (readyWait n messages unique).1 = waitForAllReady n messages unique := by
  induction messages generalizing unique with
  | nil =>
    unfold readyWait waitForAllReady
    split_ifs <;> rfl
  | cons m rest ih =>
    unfold readyWait waitForAllReady
    by_cases hcard : unique.card < n
    · rw [if_pos hcard, if_pos hcard]
      cases m with
      | otherSize size => rfl
      | ready id =>
        dsimp only
        by_cases hbad : id < 0 ∨ n ≤ id.toNat
        · rw [if_pos hbad, if_pos hbad]
        · rw [if_neg hbad, if_neg hbad]
          exact ih _
    · rw [if_neg hcard, if_neg hcard]

/-! ## The valid ids -/

theorem validId_eq_some {m : ReadyMessage} {id : InterfaceId} :
    m.validId n = some id ↔ m = .ready id ∧ ¬ m.Refused n := by
  cases m with
  | otherSize size => simp [ReadyMessage.validId]
  | ready id' =>
    simp only [ReadyMessage.validId, ReadyMessage.Refused, ReadyMessage.ready.injEq]
    split_ifs with hbad
    · simp [hbad]
    · simp [hbad]

theorem mem_validIds {messages : List ReadyMessage} {id : InterfaceId} :
    id ∈ validIds n messages ↔ .ready id ∈ messages ∧ ¬ (ReadyMessage.ready id).Refused n := by
  simp only [validIds, List.mem_toFinset, List.mem_filterMap, validId_eq_some]
  constructor
  · rintro ⟨m, hm, rfl, haccepted⟩
    exact ⟨hm, haccepted⟩
  · rintro ⟨hm, haccepted⟩
    exact ⟨_, hm, rfl, haccepted⟩

theorem validIds_cons {id : InterfaceId} (h : ¬ (ReadyMessage.ready id).Refused n) (rest : List ReadyMessage) :
    validIds n (.ready id :: rest) = insert id (validIds n rest) := by
  ext id'
  rw [Finset.mem_insert, mem_validIds, mem_validIds, List.mem_cons, ReadyMessage.ready.injEq]
  constructor
  · rintro ⟨rfl | hrest, haccepted⟩
    · exact .inl rfl
    · exact .inr ⟨hrest, haccepted⟩
  · rintro (rfl | ⟨hrest, haccepted⟩)
    · exact ⟨.inl rfl, h⟩
    · exact ⟨.inr hrest, haccepted⟩

theorem validIds_mono {pre messages : List ReadyMessage} (h : pre ⊆ messages) :
    validIds n pre ⊆ validIds n messages := by
  intro id hid
  obtain ⟨hmem, haccepted⟩ := mem_validIds.mp hid
  exact mem_validIds.mpr ⟨h hmem, haccepted⟩

theorem validIds_subset (messages : List ReadyMessage) : validIds n messages ⊆ (expectedPeers n).toFinset := by
  intro id hid
  have haccepted := (mem_validIds.mp hid).2
  simp only [ReadyMessage.Refused, not_or, not_lt, not_le] at haccepted
  rw [List.mem_toFinset, expectedPeers, List.mem_map]
  exact ⟨id.toNat, List.mem_range.mpr haccepted.2, Int.toNat_of_nonneg haccepted.1⟩

theorem sortedLT_expectedPeers : (expectedPeers n).SortedLT := by
  unfold expectedPeers
  apply List.Pairwise.sortedLT
  apply List.Pairwise.map _ _ List.pairwise_lt_range
  intro a b hab
  exact_mod_cast hab

theorem card_expectedPeers : (expectedPeers n).toFinset.card = n := by
  rw [List.toFinset_card_of_nodup sortedLT_expectedPeers.nodup]
  simp [expectedPeers]

theorem card_validIds_le (messages : List ReadyMessage) : (validIds n messages).card ≤ n :=
  (Finset.card_le_card (validIds_subset messages)).trans card_expectedPeers.le

theorem ascending_validIds_eq_iff {messages : List ReadyMessage} :
    ascending (validIds n messages) = expectedPeers n ↔ (validIds n messages).card = n := by
  constructor
  · intro heq
    have hids : (ascending (validIds n messages)).toFinset = validIds n messages := Finset.sort_toFinset _ _
    rw [← hids, heq, card_expectedPeers]
  · intro hcard
    have hall : validIds n messages = (expectedPeers n).toFinset := by
      apply Finset.eq_of_subset_of_card_le (validIds_subset messages)
      rw [hcard, card_expectedPeers]
    apply List.SortedLT.eq_of_mem_iff (sortedLT_ascending _) sortedLT_expectedPeers
    intro id
    rw [mem_ascending, hall, List.mem_toFinset]

theorem findMissingPeers_eq_filter (ids : List InterfaceId) :
    findMissingPeers n ids = (expectedPeers n).filter fun id => id ∉ ids := by
  unfold findMissingPeers expectedPeers
  rw [List.filter_map]
  congr 1
  apply List.filter_congr
  intro k hk
  rw [markSeen_getD ids (List.mem_range.mp hk)]
  simp

/-! ## The loop -/

theorem readyWait_ok {messages rest : List ReadyMessage} {unique : Finset InterfaceId} {result : ReadyResult}
    (h : readyWait n messages unique = (.ok result, rest)) :
    ∃ consumed, messages = consumed ++ rest ∧ (∀ m ∈ consumed, ¬ m.Refused n) ∧
      (∀ pre m post, consumed = pre ++ m :: post → (unique ∪ validIds n pre).card < n) ∧
      (n ≤ (unique ∪ validIds n consumed).card ∨ rest = []) ∧
      result.readyPeerIds = ascending (unique ∪ validIds n consumed) ∧
      (result.readyTimedOut = true ↔ (unique ∪ validIds n consumed).card < n) := by
  have hstop : ∀ u : Finset InterfaceId, u ∪ validIds n [] = u := fun u => Finset.union_empty u
  have hnone : ∀ pre m post, ([] : List ReadyMessage) = pre ++ m :: post → (unique ∪ validIds n pre).card < n := by
    intro pre m post heq
    simp at heq
  induction messages generalizing unique with
  | nil =>
    unfold readyWait at h
    split_ifs at h with hcard
    · obtain ⟨hresult, rfl⟩ := Prod.mk.inj h
      obtain rfl := Except.ok.inj hresult
      refine ⟨[], rfl, by simp, hnone, .inr rfl, ?_, ?_⟩
      · rw [hstop]
      · rw [hstop]
        simp [hcard]
    · obtain ⟨hresult, rfl⟩ := Prod.mk.inj h
      obtain rfl := Except.ok.inj hresult
      refine ⟨[], rfl, by simp, hnone, .inr rfl, ?_, ?_⟩
      · rw [hstop]
      · rw [hstop]
        simp [hcard]
  | cons m rest' ih =>
    unfold readyWait at h
    by_cases hcard : unique.card < n
    · rw [if_pos hcard] at h
      cases m with
      | otherSize size =>
        cases (Prod.mk.inj h).1
      | ready id =>
        dsimp only at h
        split_ifs at h with hbad
        · cases (Prod.mk.inj h).1
        obtain ⟨consumed, rfl, haccepted, hwaiting, hcomplete, hids, htimed⟩ := ih h (by simp)
        -- the id joins the set before the rest of the messages is read
        have hjoin : ∀ pre, unique ∪ validIds n (.ready id :: pre) = insert id unique ∪ validIds n pre := by
          intro pre
          rw [validIds_cons hbad, Finset.union_insert, Finset.insert_union]
        refine ⟨.ready id :: consumed, rfl, ?_, ?_, ?_, ?_, ?_⟩
        · intro m hm
          rcases List.mem_cons.mp hm with rfl | hm
          · exact hbad
          · exact haccepted m hm
        · intro pre m post heq
          cases pre with
          | nil =>
            rw [hstop]
            exact hcard
          | cons first pre =>
            obtain ⟨rfl, htail⟩ := List.cons.inj heq
            rw [hjoin]
            exact hwaiting pre m post htail
        · rw [hjoin]
          exact hcomplete
        · rw [hjoin]
          exact hids
        · rw [hjoin]
          exact htimed
    · rw [if_neg hcard] at h
      obtain ⟨hresult, rfl⟩ := Prod.mk.inj h
      obtain rfl := Except.ok.inj hresult
      refine ⟨[], rfl, by simp, hnone, .inl ?_, ?_, ?_⟩
      · rw [hstop]
        omega
      · rw [hstop]
      · rw [hstop]
        simp only [Bool.false_eq_true, false_iff]
        exact hcard

theorem readyWait_error {messages rest : List ReadyMessage} {unique : Finset InterfaceId} {what : String}
    (h : readyWait n messages unique = (.error what, rest)) :
    ∃ pre bad, messages = pre ++ bad :: rest ∧ bad.Refused n ∧ (unique ∪ validIds n pre).card < n := by
  induction messages generalizing unique with
  | nil =>
    unfold readyWait at h
    split_ifs at h
    · cases (Prod.mk.inj h).1
    · cases (Prod.mk.inj h).1
  | cons m rest' ih =>
    unfold readyWait at h
    by_cases hcard : unique.card < n
    · rw [if_pos hcard] at h
      have hunique : (unique ∪ validIds n []).card < n := by
        rw [show validIds n [] = ∅ from rfl, Finset.union_empty]
        exact hcard
      cases m with
      | otherSize size =>
        obtain ⟨-, rfl⟩ := Prod.mk.inj h
        exact ⟨[], .otherSize size, rfl, trivial, hunique⟩
      | ready id =>
        dsimp only at h
        split_ifs at h with hbad
        · obtain ⟨-, rfl⟩ := Prod.mk.inj h
          exact ⟨[], .ready id, rfl, hbad, hunique⟩
        · obtain ⟨pre, bad, rfl, hrefused, hless⟩ := ih h
          refine ⟨.ready id :: pre, bad, rfl, hrefused, ?_⟩
          rw [validIds_cons hbad, Finset.union_insert, ← Finset.insert_union]
          exact hless
    · rw [if_neg hcard] at h
      cases (Prod.mk.inj h).1

theorem readyReport_of_ok {messages rest : List ReadyMessage} {result : ReadyResult}
    (h : readyWait n messages ∅ = (.ok result, rest)) :
    ∃ consumed, messages = consumed ++ rest ∧ ReadyReport n consumed rest result := by
  obtain ⟨consumed, hmessages, haccepted, hwaiting, hcomplete, hids, htimed⟩ := readyWait_ok h
  simp only [Finset.empty_union] at hwaiting hcomplete hids htimed
  have hle := card_validIds_le (n := n) consumed
  refine ⟨consumed, hmessages, ?_⟩
  constructor
  · exact haccepted
  · exact hwaiting
  · exact hcomplete.imp_left fun hge => le_antisymm hle hge
  · rw [hids]
    exact sortedLT_ascending _
  · intro id
    rw [hids, mem_ascending, mem_validIds]
    exact and_iff_left_of_imp fun hmem => haccepted _ hmem
  · rw [htimed, hids, ne_eq, ascending_validIds_eq_iff]
    omega
  · intro _
    exact findMissingPeers_eq_filter _

theorem not_returned {pre post consumed rest : List ReadyMessage} {bad : ReadyMessage} {result : ReadyResult}
    (hrefused : bad.Refused n) (hless : (validIds n pre).card < n) (h : pre ++ bad :: post = consumed ++ rest)
    (hreport : ReadyReport n consumed rest result) : False := by
  rcases List.append_eq_append_iff.mp h with ⟨more, rfl, hrest⟩ | ⟨more, rfl, rfl⟩
  · cases more with
    | nil =>
      rw [List.append_nil] at hreport
      have hnotempty : rest ≠ [] := by
        rw [← List.nil_append rest, ← hrest]
        exact List.cons_ne_nil _ _
      have hcard := hreport.complete_or_all.resolve_right hnotempty
      omega
    | cons m more =>
      obtain ⟨rfl, -⟩ := List.cons.inj hrest
      exact hreport.accepted bad (by simp) hrefused
  · have hcard := hreport.complete_or_all.resolve_right (by simp)
    have hmono : (validIds n consumed).card ≤ (validIds n (consumed ++ more)).card :=
      Finset.card_le_card (validIds_mono (List.subset_append_left _ _))
    omega

/-- **The result of the ready barrier.** For every number of expected peers and every sequence of messages before
the deadline, `waitForAllReady` throws exactly when a message of the wrong size or out of range comes before all
expected ids have been seen. Otherwise it returns what it consumed: the sorted valid ids, timed out exactly when
they are not all ids, and then `findMissingPeers` is their complement. -/
theorem ready_barrier_result (totalPeers : Nat) (messages : List ReadyMessage) :
    ((∃ what, waitForAllReady totalPeers messages ∅ = .error what) ↔
      ∃ pre bad post, messages = pre ++ bad :: post ∧ bad.Refused totalPeers ∧
        (validIds totalPeers pre).card < totalPeers) ∧
    ∀ result, waitForAllReady totalPeers messages ∅ = .ok result →
      ∃ consumed rest, messages = consumed ++ rest ∧
        readyWait totalPeers messages ∅ = (.ok result, rest) ∧ ReadyReport totalPeers consumed rest result := by
  rw [← readyWait_fst]
  constructor
  · constructor
    · rintro ⟨what, hthrows⟩
      obtain ⟨pre, bad, hmessages, hrefused, hless⟩ := readyWait_error (Prod.ext hthrows rfl)
      rw [Finset.empty_union] at hless
      exact ⟨pre, bad, _, hmessages, hrefused, hless⟩
    · rintro ⟨pre, bad, post, rfl, hrefused, hless⟩
      cases hresult : readyWait totalPeers (pre ++ bad :: post) ∅ with
      | mk outcome rest =>
        cases outcome with
        | error what => exact ⟨what, rfl⟩
        | ok result =>
          exfalso
          obtain ⟨consumed, hconsumed, hreport⟩ := readyReport_of_ok hresult
          exact not_returned hrefused hless hconsumed hreport
  · intro result hreturns
    obtain ⟨consumed, hmessages, hreport⟩ := readyReport_of_ok (Prod.ext hreturns rfl)
    exact ⟨consumed, _, hmessages, Prod.ext hreturns rfl, hreport⟩

end Quantas.BoostMq
