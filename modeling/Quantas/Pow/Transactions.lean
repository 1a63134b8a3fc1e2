import Quantas.Pow.History

/-!
# What a miner knows of the transactions

A miner queues a transaction that it does not know, and forgets it when a block carries it: its own block at
once, another's when the message is read. Between protocol steps the queue, the known transactions and the
blocks agree (`TxInv`), whatever the order in which the messages arrive and however often; so no miner mines a
transaction twice, nor one that it has heard of in a block (`queue_not_mined`).

New keys are new because a peer numbers its transactions: `TxContext` is the last number that each peer has
given out, and everything in flight stays below it. A peer whose id is `NO_PEER_ID` is a case of its own:
nobody queues its transactions and nobody drops them, and only the peer itself mines them.
-/

namespace Quantas

/-- What tells a transaction from others: its submitter and its number. -/
abbrev TxKey := InterfaceId × Int

def PendingTx.key (tx : PendingTx) : TxKey := (tx.submitter, tx.id)

def Noticed (k : TxKey) : Prop := 0 ≤ k.2 ∧ k.1 ≠ NO_PEER_ID

instance (k : TxKey) : Decidable (Noticed k) := inferInstanceAs (Decidable (_ ∧ _))

def PoWMessage.carried? (msg : PoWMessage) : Option TxKey :=
  match msg.content with
  | .block b => some b.tx.key
  | .tx _ => none

def heardKeys (received : List PoWMessage) : List TxKey := received.filterMap PoWMessage.carried?

def minedKeys (log : List MinerStep) : List TxKey := log.filterMap fun step => step.mined.map fun b => b.tx.key

theorem heardKeys_concat (received : List PoWMessage) (msg : PoWMessage) :
    heardKeys (received ++ [msg]) = heardKeys received ++ msg.carried?.toList := by
  unfold heardKeys
  rw [List.filterMap_append]
  cases h : msg.carried? <;> simp [h]

theorem minedKeys_concat (log : List MinerStep) (step : MinerStep) :
    minedKeys (log ++ [step]) = minedKeys log ++ (step.mined.map fun b => b.tx.key).toList := by
  unfold minedKeys
  rw [List.filterMap_append]
  cases h : step.mined <;> simp [h]

/-! ## Numbers -/

/-- The last number that each peer has given out, and the mined transactions of `NO_PEER_ID`. -/
structure TxContext where
  issued : InterfaceId → Int
  unnamed : Set TxKey

namespace TxContext
variable {c c' c'' : TxContext} {p q : InterfaceId}

def Allows (c : TxContext) : PoWContent → Prop
  | .tx tx => tx.id ≤ c.issued tx.submitter
  | .block b => b.tx.id ≤ c.issued b.tx.submitter ∧ 0 ≤ b.tx.id ∧
      (b.tx.submitter = NO_PEER_ID → b.tx.key ∈ c.unnamed)

/-- What peer `p` can do to the context. -/
structure Moves (c : TxContext) (p : InterfaceId) (c' : TxContext) : Prop where
  issued : ∀ q, c.issued q ≤ c'.issued q
  others : ∀ q, q ≠ p → c'.issued q = c.issued q
  unnamed : c.unnamed ⊆ c'.unnamed
  unnamed_others : p ≠ NO_PEER_ID → c'.unnamed = c.unnamed

theorem Moves.refl (c : TxContext) (p : InterfaceId) : Moves c p c :=
  ⟨fun _ => le_rfl, fun _ _ => rfl, Set.Subset.refl _, fun _ => rfl⟩

theorem Moves.trans (h : Moves c p c') (h' : Moves c' p c'') : Moves c p c'' where
  issued := fun q => (h.issued q).trans (h'.issued q)
  others := fun q hq => (h'.others q hq).trans (h.others q hq)
  unnamed := h.unnamed.trans h'.unnamed
  unnamed_others := fun hp => (h'.unnamed_others hp).trans (h.unnamed_others hp)

theorem Moves.allows (h : Moves c p c') {m : PoWContent} (hm : c.Allows m) : c'.Allows m := by
  cases m with
  | tx tx => exact hm.trans (h.issued _)
  | block b =>
    obtain ⟨hissued, hid, hunnamed⟩ := hm
    exact ⟨hissued.trans (h.issued _), hid, fun heq => h.unnamed (hunnamed heq)⟩

theorem parasiteBlind_allows (c : TxContext) : Miner.ParasiteBlind c.Allows := fun _ hb => hb

def issue (c : TxContext) (p : InterfaceId) : TxContext :=
  { c with issued := Function.update c.issued p (c.issued p + 1) }

theorem moves_issue (c : TxContext) (p : InterfaceId) : Moves c p (c.issue p) where
  issued := by
    intro q
    by_cases hq : q = p
    · subst hq
      change _ ≤ Function.update c.issued q (c.issued q + 1) q
      rw [Function.update_self]
      omega
    · exact (Function.update_of_ne hq ..).ge
  others := fun _ hq => Function.update_of_ne hq ..
  unnamed := Set.Subset.refl _
  unnamed_others := fun _ => rfl

def mine (c : TxContext) (p : InterfaceId) (k : TxKey) : TxContext :=
  { c with unnamed := if p = NO_PEER_ID then insert k c.unnamed else c.unnamed }

theorem moves_mine (c : TxContext) (p : InterfaceId) (k : TxKey) : Moves c p (c.mine p k) where
  issued := fun _ => le_rfl
  others := fun _ _ => rfl
  unnamed := by
    intro j hj
    change j ∈ if p = NO_PEER_ID then insert k c.unnamed else c.unnamed
    split_ifs
    · exact Set.mem_insert_of_mem k hj
    · exact hj
  unnamed_others := fun hp => if_neg hp

end TxContext

/-! ## The books of one miner -/

/-- The queue and the known transactions of miner `p`, who has mined the transactions `mined` and heard of the
transactions `heard` in blocks. -/
structure TxInv (c : TxContext) (p : InterfaceId) (mined heard : List TxKey) (queue : List PendingTx)
    (known : List TxKey) : Prop where
  issued : ∀ k ∈ known, k.2 ≤ c.issued k.1
  nodup : (queue.map PendingTx.key).Nodup
  queued : ∀ tx ∈ queue, tx.key ∈ known
  named : ∀ tx ∈ queue, 0 ≤ tx.id ∧ (tx.submitter = NO_PEER_ID → p = NO_PEER_ID)
  mined_known : ∀ k ∈ mined, k ∈ known
  heard_known : ∀ k ∈ heard, k ∈ known ∨ k.1 = NO_PEER_ID ∧ k ∈ c.unnamed
  fresh : ∀ tx ∈ queue, tx.key ∉ mined ∧ tx.key ∉ heard
  accounted : ∀ k ∈ known, k ∈ queue.map PendingTx.key ∨ k ∈ mined ∨ k ∈ heard ∧ Noticed k
  unnamed : p = NO_PEER_ID → ∀ k ∈ c.unnamed, k ∈ mined

namespace TxInv
variable {c c' : TxContext} {p q : InterfaceId} {mined heard known : List TxKey} {queue : List PendingTx}
  {tx : PendingTx} {k : TxKey}

theorem start (hc : ∀ k, k ∉ c.unnamed) : TxInv c p [] [] [] [] where
  issued := fun _ hk => absurd hk List.not_mem_nil
  nodup := List.nodup_nil
  queued := fun _ htx => absurd htx List.not_mem_nil
  named := fun _ htx => absurd htx List.not_mem_nil
  mined_known := fun _ hk => absurd hk List.not_mem_nil
  heard_known := fun _ hk => absurd hk List.not_mem_nil
  fresh := fun _ htx => absurd htx List.not_mem_nil
  accounted := fun _ hk => absurd hk List.not_mem_nil
  unnamed := fun _ k hk => absurd hk (hc k)

theorem mono (h : TxInv c p mined heard queue known) (hc : c.Moves q c') (hunnamed : c'.unnamed = c.unnamed) :
    TxInv c' p mined heard queue known where
  issued := fun k hk => (h.issued k hk).trans (hc.issued k.1)
  nodup := h.nodup
  queued := h.queued
  named := h.named
  mined_known := h.mined_known
  heard_known := fun k hk => by
    rw [hunnamed]
    exact h.heard_known k hk
  fresh := h.fresh
  accounted := h.accounted
  unnamed := by
    rw [hunnamed]
    exact h.unnamed

theorem other (h : TxInv c p mined heard queue known) (hc : c.Moves q c') (hpq : p ≠ q) :
    TxInv c' p mined heard queue known := by
  by_cases hq : q = NO_PEER_ID
  · have hp : p ≠ NO_PEER_ID := fun heq => hpq (heq.trans hq.symm)
    refine ⟨fun k hk => (h.issued k hk).trans (hc.issued k.1), h.nodup, h.queued, h.named, h.mined_known, ?_, h.fresh,
      h.accounted, fun heq => absurd heq hp⟩
    exact fun k hk => (h.heard_known k hk).imp_right fun ⟨hsubmitter, hmem⟩ => ⟨hsubmitter, hc.unnamed hmem⟩
  · exact h.mono hc (hc.unnamed_others hq)

theorem enqueue (h : TxInv c p mined heard queue known) (tx : PendingTx) (hnew : tx.key ∉ known) (hheard : tx.key ∉ heard)
    (hissued : tx.id ≤ c.issued tx.submitter) (hid : 0 ≤ tx.id)
    (hnamed : tx.submitter = NO_PEER_ID → p = NO_PEER_ID) :
    TxInv c p mined heard (queue ++ [tx]) (tx.key :: known) where
  issued := by
    intro k hk
    rcases List.mem_cons.mp hk with rfl | hk
    · exact hissued
    · exact h.issued k hk
  nodup := by
    rw [List.map_append, List.map_singleton, ← List.concat_eq_append, List.nodup_concat]
    refine ⟨fun hmem => ?_, h.nodup⟩
    obtain ⟨old, hold, heq⟩ := List.mem_map.mp hmem
    exact hnew (heq ▸ h.queued old hold)
  queued := by
    intro other hmem
    rcases List.mem_append.mp hmem with hmem | hmem
    · exact List.mem_cons_of_mem _ (h.queued other hmem)
    · obtain rfl := List.mem_singleton.mp hmem
      exact List.mem_cons_self
  named := by
    intro other hmem
    rcases List.mem_append.mp hmem with hmem | hmem
    · exact h.named other hmem
    · obtain rfl := List.mem_singleton.mp hmem
      exact ⟨hid, hnamed⟩
  mined_known := fun k hk => List.mem_cons_of_mem _ (h.mined_known k hk)
  heard_known := fun k hk => (h.heard_known k hk).imp_left (List.mem_cons_of_mem _)
  fresh := by
    intro other hmem
    rcases List.mem_append.mp hmem with hmem | hmem
    · exact h.fresh other hmem
    · obtain rfl := List.mem_singleton.mp hmem
      exact ⟨fun hk => hnew (h.mined_known _ hk), hheard⟩
  accounted := by
    intro k hk
    rw [List.map_append, List.map_singleton]
    rcases List.mem_cons.mp hk with rfl | hk
    · exact .inl (List.mem_append_right _ (List.mem_singleton.mpr rfl))
    · exact (h.accounted k hk).imp_left (List.mem_append_left _)
  unnamed := h.unnamed

theorem notMem_heard (h : TxInv c p mined heard queue known) (hnew : k ∉ known) (hnamed : k.1 ≠ NO_PEER_ID) :
    k ∉ heard := by
  intro hk
  rcases h.heard_known k hk with hknown | ⟨hunnamed, -⟩
  · exact hnew hknown
  · exact hnamed hunnamed

theorem notMem_of_lt (h : TxInv c p mined heard queue known) (hk : k.1 = p) (hlt : c.issued p < k.2) :
    k ∉ known ∧ k ∉ heard := by
  have hknown : k ∉ known := by
    intro hmem
    have hle := h.issued k hmem
    rw [hk] at hle
    omega
  refine ⟨hknown, fun hmem => ?_⟩
  rcases h.heard_known k hmem with hmem | ⟨hunnamed, hmem⟩
  · exact hknown hmem
  · exact hknown (h.mined_known k (h.unnamed (hk.symm.trans hunnamed) k hmem))

theorem mem_eraseP_key (hnodup : (queue.map PendingTx.key).Nodup) :
    tx ∈ queue.eraseP (fun other => decide (other.key = k)) ↔ tx ∈ queue ∧ tx.key ≠ k := by
  induction queue with
  | nil => simp
  | cons head queue ih =>
    rw [List.map_cons, List.nodup_cons] at hnodup
    obtain ⟨hhead, hnodup⟩ := hnodup
    by_cases hk : head.key = k
    · rw [List.eraseP_cons_of_pos (by simpa using hk), List.mem_cons]
      constructor
      · intro hmem
        exact ⟨.inr hmem, fun heq => hhead (List.mem_map.mpr ⟨tx, hmem, heq.trans hk.symm⟩)⟩
      · rintro ⟨rfl | hmem, hne⟩
        · exact absurd hk hne
        · exact hmem
    · rw [List.eraseP_cons_of_neg (by simpa using hk), List.mem_cons, List.mem_cons, ih hnodup]
      constructor
      · rintro (rfl | ⟨hmem, hne⟩)
        · exact ⟨.inl rfl, hk⟩
        · exact ⟨.inr hmem, hne⟩
      · rintro ⟨rfl | hmem, hne⟩
        · exact .inl rfl
        · exact .inr ⟨hmem, hne⟩

theorem hear (h : TxInv c p mined heard queue known) (hissued : k.2 ≤ c.issued k.1) (hnoticed : Noticed k) :
    TxInv c p mined (heard ++ [k]) (queue.eraseP fun tx => decide (tx.key = k)) (k :: known) where
  issued := by
    intro j hj
    rcases List.mem_cons.mp hj with rfl | hj
    · exact hissued
    · exact h.issued j hj
  nodup := h.nodup.sublist (List.eraseP_sublist.map _)
  queued := fun tx hmem => List.mem_cons_of_mem _ (h.queued tx (List.mem_of_mem_eraseP hmem))
  named := fun tx hmem => h.named tx (List.mem_of_mem_eraseP hmem)
  mined_known := fun j hj => List.mem_cons_of_mem _ (h.mined_known j hj)
  heard_known := by
    intro j hj
    rcases List.mem_append.mp hj with hj | hj
    · exact (h.heard_known j hj).imp_left (List.mem_cons_of_mem _)
    · obtain rfl := List.mem_singleton.mp hj
      exact .inl List.mem_cons_self
  fresh := by
    intro tx hmem
    obtain ⟨hmem, hne⟩ := (mem_eraseP_key h.nodup).mp hmem
    obtain ⟨hmined, hheard⟩ := h.fresh tx hmem
    refine ⟨hmined, fun hj => ?_⟩
    rcases List.mem_append.mp hj with hj | hj
    · exact hheard hj
    · exact hne (List.mem_singleton.mp hj)
  accounted := by
    intro j hj
    by_cases hjk : j = k
    · exact .inr (.inr ⟨List.mem_append_right _ (List.mem_singleton.mpr hjk), hjk ▸ hnoticed⟩)
    · rcases h.accounted j (List.mem_of_ne_of_mem hjk hj) with hqueue | hmined | ⟨hheard, hj⟩
      · obtain ⟨tx, hmem, rfl⟩ := List.mem_map.mp hqueue
        exact .inl (List.mem_map.mpr ⟨tx, (mem_eraseP_key h.nodup).mpr ⟨hmem, hjk⟩, rfl⟩)
      · exact .inr (.inl hmined)
      · exact .inr (.inr ⟨List.mem_append_left _ hheard, hj⟩)
  unnamed := h.unnamed

theorem hear_unnamed (h : TxInv c p mined heard queue known) (hsubmitter : k.1 = NO_PEER_ID)
    (hunnamed : k ∈ c.unnamed) : TxInv c p mined (heard ++ [k]) queue known where
  issued := h.issued
  nodup := h.nodup
  queued := h.queued
  named := h.named
  mined_known := h.mined_known
  heard_known := by
    intro j hj
    rcases List.mem_append.mp hj with hj | hj
    · exact h.heard_known j hj
    · obtain rfl := List.mem_singleton.mp hj
      exact .inr ⟨hsubmitter, hunnamed⟩
  fresh := by
    intro tx hmem
    obtain ⟨hmined, hheard⟩ := h.fresh tx hmem
    refine ⟨hmined, fun hj => ?_⟩
    rcases List.mem_append.mp hj with hj | hj
    · exact hheard hj
    · -- then the miner is `NO_PEER_ID` itself, and has mined it
      obtain rfl := List.mem_singleton.mp hj
      exact hmined (h.unnamed ((h.named tx hmem).2 hsubmitter) _ hunnamed)
  accounted := fun j hj => (h.accounted j hj).imp_right
    (Or.imp_right fun ⟨hheard, hnoticed⟩ => ⟨List.mem_append_left _ hheard, hnoticed⟩)
  unnamed := h.unnamed

theorem mine (h : TxInv c p mined heard (tx :: queue) known) :
    TxInv (c.mine p tx.key) p (mined ++ [tx.key]) heard queue known where
  issued := h.issued
  nodup := (List.nodup_cons.mp h.nodup).2
  queued := fun other hmem => h.queued other (List.mem_cons_of_mem _ hmem)
  named := fun other hmem => h.named other (List.mem_cons_of_mem _ hmem)
  mined_known := by
    intro k hk
    rcases List.mem_append.mp hk with hk | hk
    · exact h.mined_known k hk
    · obtain rfl := List.mem_singleton.mp hk
      exact h.queued tx List.mem_cons_self
  heard_known := fun k hk => (h.heard_known k hk).imp_right fun ⟨hsubmitter, hmem⟩ =>
    ⟨hsubmitter, (c.moves_mine p tx.key).unnamed hmem⟩
  fresh := by
    intro other hmem
    obtain ⟨hmined, hheard⟩ := h.fresh other (List.mem_cons_of_mem _ hmem)
    refine ⟨fun hk => ?_, hheard⟩
    rcases List.mem_append.mp hk with hk | hk
    · exact hmined hk
    · exact (List.nodup_cons.mp h.nodup).1 (List.mem_map.mpr ⟨other, hmem, List.mem_singleton.mp hk⟩)
  accounted := by
    intro k hk
    rcases h.accounted k hk with hqueue | hmined | hheard
    · rcases List.mem_cons.mp hqueue with rfl | hqueue
      · exact .inr (.inl (List.mem_append_right _ (List.mem_singleton.mpr rfl)))
      · exact .inl hqueue
    · exact .inr (.inl (List.mem_append_left _ hmined))
    · exact .inr (.inr hheard)
  unnamed := by
    intro hp k hk
    change k ∈ (if p = NO_PEER_ID then insert tx.key c.unnamed else c.unnamed) at hk
    rw [if_pos hp] at hk
    rcases Set.mem_insert_iff.mp hk with rfl | hk
    · exact List.mem_append_right _ (List.mem_singleton.mpr rfl)
    · exact List.mem_append_left _ (h.unnamed hp k hk)

end TxInv

/-! ## A protocol step -/

namespace Miner
variable {s r : Miner} {env : MiningRound} {c c' : TxContext} {p q : InterfaceId} {mined : List TxKey}

/-- The books of miner `p` are in order, and what it reads, sends and withholds has been given out. -/
structure Queued (c : TxContext) (p : InterfaceId) (mined : List TxKey) (s : Miner) : Prop where
  publicId : s.publicId = p
  counter : s.localSubmitted = c.issued p
  nonneg : 0 ≤ s.localSubmitted
  txs : TxInv c p mined (heardKeys s.received) s.queue s.knownTransactions
  vouched : s.Vouched c.Allows

theorem Queued.other (h : s.Queued c p mined) (hc : c.Moves q c') (hpq : p ≠ q) : s.Queued c' p mined where
  publicId := h.publicId
  counter := h.counter.trans (hc.others p hpq).symm
  nonneg := h.nonneg
  txs := h.txs.other hc hpq
  vouched := h.vouched.mono fun _ hm => hc.allows hm

theorem Queued.broadcast (h : s.Queued c p mined) {msg : PoWMessage} (hmsg : c.Allows msg.content) :
    (s.broadcast msg).Queued c p mined := by
  have hvouched := h.vouched.broadcast c.parasiteBlind_allows hmsg
  obtain ⟨_, _, _, hr⟩ := publishes_broadcast s msg
  rw [hr] at hvouched ⊢
  exact ⟨h.publicId, h.counter, h.nonneg, h.txs, hvouched⟩

theorem Queued.onPacket (h : s.Queued c p mined) (prefer : PreferCandidate) {pkt : Packet PoWMessage}
    (hpkt : c.Allows pkt.message.content) : (s.onPacket prefer pkt).Queued c p mined := by
  obtain ⟨hpublicId, hcounter, hnonneg, htxs, ⟨hin, hout, hwithheld⟩⟩ := h
  unfold Miner.onPacket
  cases hcontent : pkt.message.content with
  | tx tx =>
    rw [hcontent] at hpkt
    have hheard : heardKeys (s.received ++ [pkt.message]) = heardKeys s.received := by
      rw [heardKeys_concat, PoWMessage.carried?, hcontent]
      exact List.append_nil _
    have hsame : TxInv c p mined (heardKeys (s.received ++ [pkt.message])) s.queue s.knownTransactions :=
      hheard ▸ htxs
    dsimp only
    split_ifs with hinvalid hknown
    · exact ⟨hpublicId, hcounter, hnonneg, hsame, hin, hout, hwithheld⟩
    · exact ⟨hpublicId, hcounter, hnonneg, hsame, hin, hout, hwithheld⟩
    · obtain ⟨hid, hsubmitter⟩ := not_or.mp hinvalid
      have hnew : tx.key ∉ heardKeys (s.received ++ [pkt.message]) := hsame.notMem_heard hknown hsubmitter
      exact ⟨hpublicId, hcounter, hnonneg,
        hsame.enqueue tx hknown hnew hpkt (not_lt.mp hid) fun heq => absurd heq hsubmitter, hin, hout, hwithheld⟩
  | block b =>
    rw [hcontent] at hpkt
    obtain ⟨hissued, hid, hunnamed⟩ := hpkt
    have hheard : heardKeys (s.received ++ [pkt.message]) = heardKeys s.received ++ [b.tx.key] := by
      rw [heardKeys_concat, PoWMessage.carried?, hcontent]
      rfl
    have herase : (fun tx : PendingTx => decide (tx.id = b.tx.id ∧ tx.submitter = b.tx.submitter)) =
        fun tx => decide (tx.key = b.tx.key) := by
      funext tx
      simp only [PendingTx.key, Prod.mk.injEq, and_comm]
    dsimp only
    by_cases hvalid : 0 ≤ b.tx.id ∧ b.tx.submitter ≠ NO_PEER_ID
    · rw [if_pos hvalid]
      refine ⟨hpublicId, hcounter, hnonneg, ?_, hin, hout, hwithheld⟩
      dsimp only
      rw [hheard, herase]
      exact htxs.hear hissued hvalid
    · rw [if_neg hvalid]
      have hsubmitter : b.tx.submitter = NO_PEER_ID := by
        by_contra hne
        exact hvalid ⟨hid, hne⟩
      refine ⟨hpublicId, hcounter, hnonneg, ?_, hin, hout, hwithheld⟩
      dsimp only
      rw [hheard]
      exact htxs.hear_unnamed hsubmitter (hunnamed hsubmitter)

theorem Queued.checkInStrm (h : s.Queued c p mined) (prefer : PreferCandidate) :
    (s.checkInStrm prefer).Queued c p mined := by
  have hstart : Queued c p mined { s with inStream := [] } :=
    ⟨h.publicId, h.counter, h.nonneg, h.txs, h.vouched.readAll⟩
  exact List.foldlRecOn s.inStream _ hstart fun _ hr pkt hpkt =>
    hr.onPacket prefer (h.vouched.inStream pkt hpkt)

theorem Queued.submit (h : s.Queued c p mined) :
    ∃ c', c.Moves p c' ∧ (s.submit env).Queued c' p mined := by
  obtain rfl := h.publicId
  have hcounter := h.counter
  have hnonneg := h.nonneg
  unfold Miner.submit
  split_ifs
  · have hmoves := c.moves_issue s.publicId
    have hissued : (c.issue s.publicId).issued s.publicId = s.localSubmitted + 1 := by
      rw [hcounter]
      exact Function.update_self ..
    have hid : 0 ≤ s.localSubmitted + 1 := by omega
    obtain ⟨hknown, hheard⟩ := h.txs.notMem_of_lt (k := (s.publicId, s.localSubmitted + 1)) rfl
      (by dsimp only; omega)
    have htxs := (h.txs.mono hmoves rfl).enqueue ⟨s.localSubmitted + 1, env.round, s.publicId⟩ hknown hheard
      hissued.ge hid id
    have hvouched := h.vouched.mono fun _ hm => hmoves.allows hm
    refine ⟨c.issue s.publicId, hmoves, Queued.broadcast ?_ hissued.ge⟩
    exact ⟨rfl, hissued.symm, hid, htxs, hvouched.inStream, hvouched.outbox, hvouched.withheld⟩
  · exact ⟨c, .refl c s.publicId, h⟩

theorem Queued.mine (h : s.Queued c p mined) {parents : List String} {b : MinedBlock}
    (hmined : s.mineBlock env parents = some b) :
    (b.tx.key ∉ mined ∧ b.tx.key ∉ heardKeys b.received) ∧
    ∃ c', c.Moves p c' ∧ (s.mine env parents).Queued c' p (mined ++ [b.tx.key]) := by
  obtain ⟨hqueue, -, -, hreceived, hafter⟩ := mine_cases hmined
  have htxs := h.txs
  rw [hqueue] at htxs
  have hmoves := c.moves_mine p b.tx.key
  have hvouched := h.vouched.mono fun _ hm => hmoves.allows hm
  have hqueued : (s.withBlock env.prefer b (parents ≠ [])).Queued (c.mine p b.tx.key) p (mined ++ [b.tx.key]) :=
    ⟨h.publicId, h.counter, h.nonneg, htxs.mine, hvouched.inStream, hvouched.outbox, hvouched.withheld⟩
  rw [hreceived]
  refine ⟨htxs.fresh b.tx List.mem_cons_self, c.mine p b.tx.key, hmoves, ?_⟩
  rcases hafter with heq | ⟨record, -, heq⟩
  · rw [heq]
    exact hqueued
  · rw [heq]
    refine hqueued.broadcast ⟨?_, ?_, fun hsubmitter => ?_⟩
    · exact htxs.issued _ (htxs.queued b.tx List.mem_cons_self)
    · exact (htxs.named b.tx List.mem_cons_self).1
    · change b.tx.key ∈ if p = NO_PEER_ID then insert b.tx.key c.unnamed else c.unnamed
      rw [if_pos ((htxs.named b.tx List.mem_cons_self).2 hsubmitter)]
      exact Set.mem_insert _ _

theorem Queued.tryPerformComputation (h : s.Queued c p mined) (env : MiningRound) :
    (∀ b ∈ s.stepBlock env, b.tx.key ∉ mined ∧ b.tx.key ∉ heardKeys b.received) ∧
    ∃ c', c.Moves p c' ∧ (s.tryPerformComputation env).Queued c' p
      (mined ++ ((s.stepBlock env).map fun b => b.tx.key).toList) := by
  obtain ⟨c', hmoves, hbefore⟩ : ∃ c', c.Moves p c' ∧ (s.beforeMining env).Queued c' p mined :=
    (h.checkInStrm env.prefer).submit
  rcases tryPerformComputation_cases env s with ⟨hnone, heq⟩ | ⟨b, hsome, hblock, heq⟩
  · rw [hnone, heq, Option.map_none, Option.toList_none, List.append_nil]
    exact ⟨fun b hb => absurd hb (Option.not_mem_none b), c', hmoves, hbefore⟩
  · obtain ⟨hnew, c'', hmoves', hqueued⟩ := hbefore.mine hblock
    rw [hsome, heq]
    refine ⟨fun b' hb' => ?_, c'', hmoves.trans hmoves', hqueued⟩
    obtain rfl := Option.some.inj hb'
    exact hnew

end Miner

/-! ## Runs -/

/-- The books of all miners are in order. -/
structure TxNet (c : TxContext) (net : MinerHistory) : Prop where
  nodes : ∀ p, (net.nodes p).1.Queued c p (minedKeys (net.nodes p).2)
  mined : ∀ p, (minedKeys (net.nodes p).2).Nodup
  unheard : ∀ p, ∀ step ∈ (net.nodes p).2, ∀ b ∈ step.mined, b.tx.key ∉ heardKeys b.received
  sent : ∀ pkt ∈ net.sent, c.Allows pkt.message.content

namespace TxNet
variable {cfg : Miners} {c : TxContext} {net : MinerHistory} {p : InterfaceId}

theorem start (cfg : Miners) : TxNet ⟨fun _ => 0, ∅⟩ ⟨0, cfg.history.initial, []⟩ where
  nodes := by
    intro p
    exact ⟨rfl, rfl, le_rfl, .start fun _ => Set.notMem_empty _, Miner.vouched_init _ cfg p⟩
  mined := fun _ => List.nodup_nil
  unheard := fun _ _ hstep => absurd hstep List.not_mem_nil
  sent := fun _ hpkt => absurd hpkt List.not_mem_nil

theorem react (h : TxNet c net) {arrived : List (Packet PoWMessage)} (harrived : ∀ pkt ∈ arrived, pkt ∈ net.sent) :
    ∃ c', TxNet c' (net.after p (cfg.history.react p net.time arrived (net.nodes p))) := by
  have hnode := h.nodes p
  have hstart : (Miners.startStep (net.nodes p).1 arrived).Queued c p (minedKeys (net.nodes p).2) := by
    exact ⟨hnode.publicId, hnode.counter, hnode.nonneg, hnode.txs,
      hnode.vouched.startStep fun pkt hpkt => h.sent pkt (harrived pkt hpkt)⟩
  obtain ⟨hnew, c', hmoves, hqueued⟩ := hstart.tryPerformComputation (cfg.env p net.time)
  rw [Miners.history_react]
  refine ⟨c', ?nodes, ?mined, ?unheard, fun pkt hpkt => ?sent⟩
  case nodes =>
    refine Lib.Lossy.Net.forall_after (Q := fun q (s : Miner × List MinerStep) => s.1.Queued c' q (minedKeys s.2))
      ?_ fun q hq => (h.nodes q).other hmoves hq
    rw [minedKeys_concat]
    exact hqueued
  case mined =>
    refine Lib.Lossy.Net.forall_after (Q := fun _ (s : Miner × List MinerStep) => (minedKeys s.2).Nodup) ?_
      fun q _ => h.mined q
    rw [minedKeys_concat]
    cases hblock : (Miners.startStep (net.nodes p).1 arrived).stepBlock (cfg.env p net.time) with
    | none =>
      rw [Option.map_none, Option.toList_none, List.append_nil]
      exact h.mined p
    | some b =>
      rw [Option.map_some, Option.toList_some, ← List.concat_eq_append, List.nodup_concat]
      exact ⟨(hnew b hblock).1, h.mined p⟩
  case unheard =>
    refine Lib.Lossy.Net.forall_after (Q := fun _ (s : Miner × List MinerStep) => ∀ step ∈ s.2,
      ∀ b ∈ step.mined, b.tx.key ∉ heardKeys b.received) (fun step hstep b hb => ?_) fun q _ => h.unheard q
    rcases List.mem_append.mp hstep with hstep | hstep
    · exact h.unheard p step hstep b hb
    · obtain rfl := List.mem_singleton.mp hstep
      exact (hnew b hb).2
  case sent =>
    rcases Lib.Lossy.Net.mem_after_sent.mp hpkt with hold | hsent
    · exact hmoves.allows (h.sent pkt hold)
    · exact hqueued.vouched.outbox pkt hsent

end TxNet

theorem Miners.exists_txNet (cfg : Miners) {net : MinerHistory} (h : cfg.history.machine.Reached net) :
    ∃ c, TxNet c net := by
  refine Lib.Lossy.Protocol.invariant (I := fun net : MinerHistory => ∃ c, TxNet c net) ⟨_, .start cfg⟩ ?_ ?_ h
  · rintro net t ⟨c, hnet⟩
    exact ⟨c, hnet.nodes, hnet.mined, hnet.unheard, hnet.sent⟩
  · rintro net p arrived ⟨c, hnet⟩ - - harrived
    exact hnet.react fun pkt hpkt => (harrived pkt hpkt).1

theorem mem_heardKeys {received : List PoWMessage} {msg : PoWMessage} (hmsg : msg ∈ received)
    {b : AnnouncedBlock} (hb : msg.content = .block b) : b.tx.key ∈ heardKeys received := by
  refine List.mem_filterMap.mpr ⟨msg, hmsg, ?_⟩
  rw [PoWMessage.carried?, hb]

theorem mem_minedKeys {log : List MinerStep} {step : MinerStep} (hstep : step ∈ log) {b : MinedBlock}
    (hb : b ∈ step.mined) : b.tx.key ∈ minedKeys log := by
  refine List.mem_filterMap.mpr ⟨step, hstep, ?_⟩
  rw [show step.mined = some b from hb]
  rfl

/-- **No transaction is mined again by a peer that has seen it mined.** In every state of every run, for every
peer: the queued transactions have different keys, all of them known, and no block that the peer has mined or
been told of has one of them; its own blocks have different transactions, and none that a block had which it
had been told of by then. -/
theorem Miners.queue_not_mined (cfg : Miners) (net : MinerHistory) (h : cfg.history.machine.Reached net)
    (p : InterfaceId) :
    ((net.nodes p).1.queue.map PendingTx.key).Nodup ∧
    (∀ tx ∈ (net.nodes p).1.queue, tx.key ∈ (net.nodes p).1.knownTransactions ∧
      (∀ step ∈ (net.nodes p).2, ∀ b ∈ step.mined, b.tx.key ≠ tx.key) ∧
      ∀ msg ∈ (net.nodes p).1.received, ∀ b, msg.content = .block b → b.tx.key ≠ tx.key) ∧
    (minedKeys (net.nodes p).2).Nodup ∧
    ∀ step ∈ (net.nodes p).2, ∀ own ∈ step.mined, ∀ msg ∈ own.received, ∀ b,
      msg.content = .block b → b.tx.key ≠ own.tx.key := by
  obtain ⟨c, hnet⟩ := cfg.exists_txNet h
  have htxs := (hnet.nodes p).txs
  refine ⟨htxs.nodup, fun tx htx => ⟨htxs.queued tx htx, ?_, ?_⟩, hnet.mined p, ?_⟩
  · intro step hstep b hb heq
    exact (htxs.fresh tx htx).1 (heq ▸ mem_minedKeys hstep hb)
  · intro msg hmsg b hb heq
    exact (htxs.fresh tx htx).2 (heq ▸ mem_heardKeys hmsg hb)
  · intro step hstep own hown msg hmsg b hb heq
    exact hnet.unheard p step hstep own hown (heq ▸ mem_heardKeys hmsg hb)

/-- Two honest miners, who submit a transaction in every round and mine in the first round only. -/
def Miners.twoMiners : Miners where
  prefer := PoWBitcoin.preferCandidate
  peers := [0, 1]
  neighbors := fun p => [1 - p]
  attackers := []
  leadThreshold := 1
  submitRate := 1
  mineRate := fun _ => 1
  mineDenominator := fun _ => 1
  submitDraw := fun _ _ => 0
  mineDraw := fun _ round => round

/-- The announcement of the first transaction of miner 1, whose block is `honestBlock`. -/
def Miners.honestTx : Packet PoWMessage := ⟨1, 0, { content := .tx ⟨1, 0, 1⟩, fromId := 1 }⟩

def Miners.blockOvertakes : List (Lib.Lossy.Event InterfaceId (Packet PoWMessage)) :=
  [.react 0 [], .react 1 [], .tick, .react 0 [honestBlock, honestTx, honestBlock]]

theorem Miners.queue_not_mined_blockOvertakes :
    ∃ net, twoMiners.history.machine.Reached net ∧ (net.nodes 0).1.queue = [⟨2, 1, 0⟩] ∧
      (net.nodes 0).1.knownTransactions = [(0, 2), (1, 1), (1, 1), (0, 1)] ∧
      minedKeys (net.nodes 0).2 = [(0, 1)] ∧ (minedKeys (net.nodes 0).2).Nodup := by
  have hrun : (twoMiners.history.machine.run ⟨0, twoMiners.history.initial, []⟩ blockOvertakes).map
      (fun net => decide ((net.nodes 0).1.queue = [⟨2, 1, 0⟩] ∧
        (net.nodes 0).1.knownTransactions = [(0, 2), (1, 1), (1, 1), (0, 1)] ∧
        minedKeys (net.nodes 0).2 = [(0, 1)])) = some true := by
    decide +kernel
  obtain ⟨net, hnet, hfinal⟩ := Option.map_eq_some_iff.mp hrun
  obtain ⟨hqueue, hknown, hmined⟩ := of_decide_eq_true hfinal
  have hreached := Lib.Machine.reached_of_run (.start rfl) hnet
  exact ⟨net, hreached, hqueue, hknown, hmined, (queue_not_mined twoMiners net hreached 0).2.2.1⟩

end Quantas
