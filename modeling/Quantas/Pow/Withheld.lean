import Quantas.Pow.Miner

/-!
# Withheld blocks

What happens to a block that is handed to the parasite fault, as one of its own (`onSend`) or as a private
block of a collaborator (`onReceive`): `Custody` says that it is withheld or has been broadcast, and how the
withheld blocks stand in the fields of the fault. Every call of a hook keeps it. A release sorts the withheld
blocks by height, so a parent comes before its children.
-/

namespace Quantas

inductive HookCall
  | onSend (msg : PoWMessage) (sendType : SendType)
  | onReceive (msg : PoWMessage) (src : InterfaceId)
  deriving DecidableEq, Repr

def HookCall.handed? (collaborators : List InterfaceId) : HookCall → Option AnnouncedBlock
  | .onSend msg sendType =>
    match msg.content with
    | .tx _ => none
    | .block b => if sendType = .broadcast then some b else none
  | .onReceive msg src =>
    match msg.content with
    | .tx _ => none
    | .block b => if msg.parasitePrivate ∧ src ∈ collaborators then some b else none

def Release.messages (r : Release) : List PoWMessage :=
  (r.withheld.insertionSort ParasiteFault.releaseOrder).map fun stored =>
    { stored.message with parasitePrivate := false }

namespace Miner

def call (s : Miner) : HookCall → Miner
  | .onSend msg sendType => (s.onSend msg sendType []).1
  | .onReceive msg src => (s.onReceive msg src).1

def broadcasts (s : Miner) : List PoWMessage := s.releases.flatMap Release.messages

end Miner

/-- The messages to a peer that announce a block to everybody. -/
def publicTo (id : InterfaceId) (packets : List (Packet PoWMessage)) : List PoWMessage :=
  (packets.filter fun pkt => pkt.target = id ∧ pkt.message.publicBlock?.isSome).map (·.message)

def announcedHashes (msgs : List PoWMessage) : List String :=
  msgs.filterMap fun msg => msg.publicBlock?.map AnnouncedBlock.hash

def ParentsFirst (msgs : List PoWMessage) : Prop :=
  msgs.Pairwise fun m m' => ∀ b ∈ m.publicBlock?, ∀ b' ∈ m'.publicBlock?, b'.hash ∉ b.parents

/-- `privateHeight` is the height of the highest withheld block. -/
structure ParasiteFault.Highest (f : ParasiteFault) : Prop where
  bound : ∀ stored ∈ f.privateChain, stored.height ≤ f.privateHeight
  attained : f.privateChain ≠ [] → ∃ stored ∈ f.privateChain, stored.height = f.privateHeight
  zero : f.privateChain = [] → f.privateHeight = 0

/-- A block as a miner announces it: it has a hash, and its length is one more than that of each parent. -/
structure AnnouncedBlock.Sound (lengthOf : String → Nat) (b : AnnouncedBlock) : Prop where
  hash : b.hash ≠ ""
  length : b.length = lengthOf b.hash
  parents : ∀ p ∈ b.parents, lengthOf b.hash = lengthOf p + 1

/-! ## What a call does -/

namespace Miner
variable {s : Miner}

theorem unicastTo_neighbor {dest : InterfaceId} (h : dest ∈ s.neighbors) (msg : PoWMessage) :
    s.unicastTo msg dest = { s with outbox := s.outbox ++ [⟨s.publicId, dest, msg⟩] } :=
  if_pos h

theorem foldl_unicastTo {dests : List InterfaceId} (h : dests ⊆ s.neighbors) (msg : PoWMessage) :
    dests.foldl (fun s dest => s.unicastTo msg dest) s =
      { s with outbox := s.outbox ++ dests.map fun dest => ⟨s.publicId, dest, msg⟩ } := by
  induction dests generalizing s with
  | nil => simp
  | cons dest dests ih =>
    obtain ⟨hdest, hdests⟩ := List.cons_subset.mp h
    have hrest := @ih { s with outbox := s.outbox ++ [⟨s.publicId, dest, msg⟩] } hdests
    rw [List.foldl_cons, unicastTo_neighbor hdest, hrest]
    simp

theorem networkBroadcast_eq (s : Miner) (msg : PoWMessage) :
    s.networkBroadcast msg =
      { s with outbox := s.outbox ++ s.neighbors.map fun dest => ⟨s.publicId, dest, msg⟩ } :=
  foldl_unicastTo (List.Subset.refl _) msg

theorem foldl_networkBroadcast (msgs : List PoWMessage) (s : Miner) :
    msgs.foldl networkBroadcast s = { s with
      outbox := s.outbox ++ msgs.flatMap fun msg => s.neighbors.map fun dest => ⟨s.publicId, dest, msg⟩ } := by
  induction msgs generalizing s with
  | nil => simp
  | cons msg msgs ih =>
    rw [List.foldl_cons, ih, networkBroadcast_eq]
    simp

theorem foldl_private (dests : List InterfaceId) (msg : PoWMessage) (s : Miner) : ∃ sent,
    dests.foldl (fun s dest => s.unicastTo { msg with parasitePrivate := true } dest) s =
      { s with outbox := s.outbox ++ sent } ∧ ∀ pkt ∈ sent, pkt.message.parasitePrivate = true := by
  induction dests generalizing s with
  | nil => exact ⟨[], by simp, by simp⟩
  | cons dest dests ih =>
    rw [List.foldl_cons]
    by_cases hdest : dest ∈ s.neighbors
    · obtain ⟨sent, hsent, hprivate⟩ := ih (s.unicastTo { msg with parasitePrivate := true } dest)
      rw [unicastTo_neighbor hdest] at hsent ⊢
      refine ⟨⟨s.publicId, dest, { msg with parasitePrivate := true }⟩ :: sent, ?_, ?_⟩
      · rw [hsent]
        simp
      · intro pkt hpkt
        rcases List.mem_cons.mp hpkt with rfl | hpkt
        · rfl
        · exact hprivate pkt hpkt
    · have hskip : s.unicastTo { msg with parasitePrivate := true } dest = s := if_neg hdest
      rw [hskip]
      exact ih s

theorem tryRelease_eq {f : ParasiteFault} (h : s.parasite = some f) :
    s.tryRelease = if f.Releases then { s with
      parasite := some f.released
      releases := s.releases ++ [⟨f.privateChain, s.received⟩]
      outbox := s.outbox ++ (Release.messages ⟨f.privateChain, s.received⟩).flatMap fun msg =>
        s.neighbors.map fun dest => ⟨s.publicId, dest, msg⟩ } else s := by
  unfold tryRelease
  rw [h]
  dsimp only
  by_cases hreleases : f.Releases
  · rw [if_pos hreleases, if_pos hreleases, foldl_networkBroadcast]
    rfl
  · rw [if_neg hreleases, if_neg hreleases]

/-- A call hands no block to the fault and leaves alone what it withholds, or it hands one over, which is
stored before the fault tries to release. -/
theorem call_cases {f : ParasiteFault} (h : s.parasite = some f) (c : HookCall) :
    (c.handed? f.collaborators = none ∧
      ∃ publicHeight, s.call c = { s with parasite := some { f with publicHeight := publicHeight } }) ∨
    ∃ b msg flag sent, c.handed? f.collaborators = some b ∧
      msg.content = .block { b with parasite := flag } ∧
      (∀ pkt ∈ sent, pkt.message.parasitePrivate = true) ∧
      s.call c = tryRelease { s with
        parasite := some (f.storePrivate msg)
        outbox := s.outbox ++ sent } := by
  have hsame : s = { s with parasite := some { f with publicHeight := f.publicHeight } } := by
    rw [← h]
  have hcollaborators : s.collaborators = f.collaborators := by
    rw [collaborators, h]
    rfl
  cases c with
  | onSend msg sendType =>
    rw [call, onSend]
    by_cases hbroadcast : sendType = .broadcast
    · rw [if_neg (not_not.mpr hbroadcast), HookCall.handed?]
      cases hcontent : msg.content with
      | tx tx => exact .inl ⟨rfl, f.publicHeight, hsame⟩
      | block b =>
        dsimp only
        rw [if_pos hbroadcast]
        let marked : PoWMessage := { msg with content := .block { b with parasite := true } }
        have hupdate : s.updateParasite (·.storePrivate marked) =
            { s with parasite := some (f.storePrivate marked) } := by
          rw [updateParasite, h]
          rfl
        obtain ⟨sent, hsent, hprivate⟩ := foldl_private
          ((s.updateParasite (·.storePrivate marked)).collaborators.filter (· ≠ s.publicId)) marked
          (s.updateParasite (·.storePrivate marked))
        refine .inr ⟨b, marked, true, sent, rfl, rfl, hprivate, (congrArg tryRelease hsent).trans ?_⟩
        rw [hupdate]
    · rw [if_pos hbroadcast, HookCall.handed?]
      cases hcontent : msg.content with
      | tx tx => exact .inl ⟨rfl, f.publicHeight, hsame⟩
      | block b => exact .inl ⟨if_neg hbroadcast, f.publicHeight, hsame⟩
  | onReceive msg src =>
    rw [call, onReceive, HookCall.handed?]
    cases hcontent : msg.content with
    | tx tx => exact .inl ⟨rfl, f.publicHeight, hsame⟩
    | block b =>
      dsimp only
      rw [hcollaborators]
      by_cases hprivate : msg.parasitePrivate ∧ src ∈ f.collaborators
      · rw [if_pos hprivate, if_pos hprivate]
        refine .inr ⟨b, msg, b.parasite, [], rfl, hcontent, by simp, ?_⟩
        rw [updateParasite, h, List.append_nil]
        rfl
      · rw [if_neg hprivate, if_neg hprivate]
        refine .inl ⟨rfl, max f.publicHeight (ParasiteFault.extractHeight msg), ?_⟩
        rw [updateParasite, h]
        rfl

end Miner

/-! ## A list of withheld blocks -/

/-- A withheld block as `storePrivate` enters it. -/
structure StoredBlock.Sound (lengthOf : String → Nat) (stored : StoredBlock) : Prop where
  message : ∃ b, stored.message.content = .block b ∧ b.hash = stored.hash ∧ b.parents = stored.parents
  height : stored.height = lengthOf stored.hash
  parents : ∀ p ∈ stored.parents, lengthOf stored.hash = lengthOf p + 1

structure Withholds (lengthOf : String → Nat) (chain : List StoredBlock) : Prop where
  nodup : (chain.map StoredBlock.hash).Nodup
  sound : ∀ stored ∈ chain, stored.Sound lengthOf

section Messages
variable {lengthOf : String → Nat} {r : Release}

theorem Release.messages_perm (r : Release) :
    r.messages.Perm (r.withheld.map fun stored => { stored.message with parasitePrivate := false }) :=
  (List.perm_insertionSort _ _).map _

theorem StoredBlock.Sound.publicBlock? {stored : StoredBlock} (h : stored.Sound lengthOf) :
    ∃ b, PoWMessage.publicBlock? { stored.message with parasitePrivate := false } = some b ∧
      b.hash = stored.hash ∧ b.parents = stored.parents := by
  obtain ⟨b, hb, hhash, hparents⟩ := h.message
  refine ⟨b, ?_, hhash, hparents⟩
  rw [PoWMessage.publicBlock?, hb]
  rfl

theorem announcedHashes_unmarked {chain : List StoredBlock} (h : ∀ stored ∈ chain, stored.Sound lengthOf) :
    announcedHashes (chain.map fun stored => { stored.message with parasitePrivate := false }) =
      chain.map StoredBlock.hash := by
  induction chain with
  | nil => rfl
  | cons stored chain ih =>
    obtain ⟨b, hb, hhash, -⟩ := (h stored List.mem_cons_self).publicBlock?
    have hrest := ih fun stored hstored => h stored (List.mem_cons_of_mem _ hstored)
    unfold announcedHashes at hrest ⊢
    rw [List.map_cons, List.filterMap_cons, hb, Option.map_some, List.map_cons, hrest, hhash]

theorem announcedHashes_messages (h : Withholds lengthOf r.withheld) :
    (announcedHashes r.messages).Perm (r.withheld.map StoredBlock.hash) := by
  rw [← announcedHashes_unmarked h.sound]
  exact r.messages_perm.filterMap _

theorem releaseOrder_height {a b : StoredBlock} (h : ParasiteFault.releaseOrder a b) : a.height ≤ b.height := by
  unfold ParasiteFault.releaseOrder at h
  split_ifs at h with heq
  · exact heq.le
  · exact h.le

instance : Std.Total ParasiteFault.releaseOrder where
  total a b := by
    unfold ParasiteFault.releaseOrder
    rcases lt_trichotomy a.height b.height with h | h | h
    · left
      rw [if_neg h.ne]
      exact h
    · rw [if_pos h, if_pos h.symm]
      exact le_total a.hash b.hash
    · right
      rw [if_neg h.ne]
      exact h

instance : IsTrans StoredBlock ParasiteFault.releaseOrder where
  trans a b c hab hbc := by
    have hac := (releaseOrder_height hab).trans (releaseOrder_height hbc)
    unfold ParasiteFault.releaseOrder at hab hbc ⊢
    by_cases h : a.height = c.height
    · have hb : a.height = b.height := by
        split_ifs at hab hbc <;> omega
      rw [if_pos hb] at hab
      rw [if_pos (hb.symm.trans h)] at hbc
      rw [if_pos h]
      exact hab.trans hbc
    · rw [if_neg h]
      exact lt_of_le_of_ne hac h

theorem parentsFirst_messages (h : Withholds lengthOf r.withheld) : ParentsFirst r.messages := by
  have hsorted := List.pairwise_insertionSort ParasiteFault.releaseOrder r.withheld
  unfold ParentsFirst Release.messages
  rw [List.pairwise_map]
  refine hsorted.imp_of_mem fun {a b} ha hb hab => ?_
  have ha' := h.sound a ((List.perm_insertionSort _ _).mem_iff.mp ha)
  have hb' := h.sound b ((List.perm_insertionSort _ _).mem_iff.mp hb)
  obtain ⟨blockA, hblockA, hhashA, hparentsA⟩ := ha'.publicBlock?
  obtain ⟨blockB, hblockB, hhashB, hparentsB⟩ := hb'.publicBlock?
  intro x hx y hy hparent
  rw [hblockA, Option.mem_some_iff] at hx
  rw [hblockB, Option.mem_some_iff] at hy
  subst hx hy
  rw [hparentsA, hhashB] at hparent
  have hheight := releaseOrder_height hab
  rw [ha'.height, hb'.height, ha'.parents _ hparent] at hheight
  omega

end Messages

/-! ## Custody -/

namespace Miner

def withheldHashes (f : ParasiteFault) : List String := f.privateChain.map StoredBlock.hash

def releasedHashes (s : Miner) : List String := s.releases.flatMap fun r => r.withheld.map StoredBlock.hash

/-- Where the blocks are whose hashes have been handed over. -/
structure Custody (lengthOf : String → Nat) (handed : List String) (s : Miner) (f : ParasiteFault) : Prop where
  hashes : ∀ hash, hash ∈ f.privateHashes ↔ hash ∈ withheldHashes f
  chain : Withholds lengthOf f.privateChain
  releases : ∀ r ∈ s.releases, Withholds lengthOf r.withheld
  highest : f.Highest
  kept : ∀ hash, hash ∈ handed ↔ hash ∈ withheldHashes f ++ s.releasedHashes

def Once (s : Miner) (f : ParasiteFault) : Prop := (withheldHashes f ++ s.releasedHashes).Nodup

variable {lengthOf : String → Nat} {handed : List String} {s : Miner} {f : ParasiteFault}

theorem custody_new {lead : Int} {collaborators : List InterfaceId} (hreleases : s.releases = []) :
    Custody lengthOf [] s (.new lead collaborators) where
  hashes _ := Iff.rfl
  chain := ⟨List.nodup_nil, by simp [ParasiteFault.new]⟩
  releases := by simp [hreleases]
  highest := ⟨by simp [ParasiteFault.new], fun h => absurd rfl h, fun _ => rfl⟩
  kept := by simp [withheldHashes, releasedHashes, hreleases, ParasiteFault.new]

theorem withheldHashes_append (f : ParasiteFault) (hashes : List String) (height : Int) (stored : StoredBlock) :
    withheldHashes { f with
      privateHashes := hashes
      privateHeight := height
      privateChain := f.privateChain ++ [stored] } = withheldHashes f ++ [stored.hash] :=
  List.map_append

theorem Custody.storePrivate (h : Custody lengthOf handed s f) {b : AnnouncedBlock} (hb : b.Sound lengthOf)
    {msg : PoWMessage} {flag : Bool} (hmsg : msg.content = .block { b with parasite := flag }) :
    Custody lengthOf (handed ++ [b.hash]) s (f.storePrivate msg) := by
  rw [ParasiteFault.storePrivate, hmsg]
  dsimp only
  rw [if_neg hb.hash]
  by_cases hknown : b.hash ∈ f.privateHashes
  · rw [if_pos hknown]
    have hhanded : b.hash ∈ handed :=
      (h.kept _).mpr (List.mem_append_left _ ((h.hashes _).mp hknown))
    refine { h with kept := fun hash => ?_ }
    rw [← h.kept, List.mem_append, List.mem_singleton]
    refine ⟨?_, .inl⟩
    rintro (hash | rfl)
    · exact hash
    · exact hhanded
  · rw [if_neg hknown]
    have hnew : b.hash ∉ withheldHashes f := fun hmem => hknown ((h.hashes _).mpr hmem)
    have hlength : (0 : Int) ≤ b.length := by
      rw [hb.length]
      exact Int.natCast_nonneg _
    refine ⟨fun hash => ?_, ⟨?_, ?_⟩, h.releases, ⟨?_, ?_, ?_⟩, fun hash => ?_⟩
    · rw [withheldHashes_append, List.mem_cons, List.mem_append, List.mem_singleton, h.hashes, or_comm]
    · rw [List.map_append, List.nodup_append]
      refine ⟨h.chain.nodup, List.nodup_singleton _, ?_⟩
      intro x hx y hy heq
      rw [List.map_singleton, List.mem_singleton] at hy
      rw [heq, hy] at hx
      exact hnew hx
    · intro stored hstored
      rcases List.mem_append.mp hstored with hstored | hstored
      · exact h.chain.sound stored hstored
      · obtain rfl := List.mem_singleton.mp hstored
        exact ⟨⟨_, hmsg, rfl, rfl⟩, hb.length, hb.parents⟩
    · intro stored hstored
      rcases List.mem_append.mp hstored with hstored | hstored
      · exact (h.highest.bound stored hstored).trans (le_max_left _ _)
      · obtain rfl := List.mem_singleton.mp hstored
        exact le_max_right _ _
    · intro _
      dsimp only
      by_cases hchain : f.privateChain = []
      · refine ⟨⟨msg, b.length, b.hash, b.parents⟩, by simp, ?_⟩
        rw [h.highest.zero hchain, max_eq_right hlength]
      · obtain ⟨stored, hstored, hheight⟩ := h.highest.attained hchain
        rcases le_total f.privateHeight b.length with hle | hle
        · exact ⟨⟨msg, b.length, b.hash, b.parents⟩, by simp, (max_eq_right hle).symm⟩
        · exact ⟨stored, List.mem_append_left _ hstored, by rw [max_eq_left hle, hheight]⟩
    · intro hnil
      exact absurd hnil (by simp)
    · rw [withheldHashes_append, List.mem_append, h.kept]
      simp only [List.mem_append, List.mem_singleton]
      tauto

theorem Custody.once_storePrivate (h : Custody lengthOf handed s f) {b : AnnouncedBlock}
    (hb : b.Sound lengthOf) {msg : PoWMessage} {flag : Bool}
    (hmsg : msg.content = .block { b with parasite := flag }) :
    s.Once (f.storePrivate msg) ↔ s.Once f ∧ b.hash ∉ s.releasedHashes := by
  rw [ParasiteFault.storePrivate, hmsg]
  dsimp only
  rw [if_neg hb.hash]
  by_cases hknown : b.hash ∈ f.privateHashes
  · rw [if_pos hknown]
    refine ⟨fun honce => ⟨honce, fun hreleased => ?_⟩, And.left⟩
    exact (List.nodup_append.mp honce).2.2 _ ((h.hashes _).mp hknown) _ hreleased rfl
  · rw [if_neg hknown]
    have hnew : b.hash ∉ withheldHashes f := fun hmem => hknown ((h.hashes _).mpr hmem)
    unfold Once
    rw [withheldHashes_append, List.append_assoc, List.singleton_append, List.nodup_middle, List.nodup_cons,
      List.mem_append]
    tauto

theorem releasedHashes_append (s : Miner) (parasite : Option ParasiteFault) (received : List PoWMessage)
    (outbox : List (Packet PoWMessage)) : releasedHashes { s with
      parasite := parasite
      releases := s.releases ++ [⟨f.privateChain, received⟩]
      outbox := outbox } = s.releasedHashes ++ withheldHashes f := by
  unfold releasedHashes withheldHashes
  rw [List.flatMap_append, List.flatMap_singleton]

theorem Custody.released (h : Custody lengthOf handed s f) {received : List PoWMessage}
    {outbox : List (Packet PoWMessage)} :
    Custody lengthOf handed { s with
      parasite := some f.released
      releases := s.releases ++ [⟨f.privateChain, received⟩]
      outbox := outbox } f.released := by
  have hnone : withheldHashes f.released = [] := rfl
  refine ⟨fun _ => Iff.rfl, ⟨List.nodup_nil, ?_⟩, ?_, ⟨?_, fun hne => absurd rfl hne, fun _ => rfl⟩, ?_⟩
  · intro stored hstored
    cases hstored
  · intro r hr
    rcases List.mem_append.mp hr with hr | hr
    · exact h.releases r hr
    · obtain rfl := List.mem_singleton.mp hr
      exact h.chain
  · intro stored hstored
    cases hstored
  · intro hash
    rw [releasedHashes_append, hnone, List.nil_append, h.kept, List.mem_append, List.mem_append, or_comm]

theorem once_released {received : List PoWMessage} {outbox : List (Packet PoWMessage)} :
    Once { s with
      parasite := some f.released
      releases := s.releases ++ [⟨f.privateChain, received⟩]
      outbox := outbox } f.released ↔ s.Once f := by
  have hnone : withheldHashes f.released = [] := rfl
  unfold Once
  rw [releasedHashes_append, hnone, List.nil_append]
  exact List.perm_append_comm.nodup_iff

/-! ## What the neighbours are sent -/

theorem publicTo_append (id : InterfaceId) (l l' : List (Packet PoWMessage)) :
    publicTo id (l ++ l') = publicTo id l ++ publicTo id l' := by
  unfold publicTo
  rw [List.filter_append, List.map_append]

theorem publicTo_private {sent : List (Packet PoWMessage)}
    (h : ∀ pkt ∈ sent, pkt.message.parasitePrivate = true) (id : InterfaceId) : publicTo id sent = [] := by
  unfold publicTo
  rw [List.map_eq_nil_iff, List.filter_eq_nil_iff]
  intro pkt hpkt hpublic
  have hnone : pkt.message.publicBlock? = none := by
    unfold PoWMessage.publicBlock?
    cases pkt.message.content with
    | tx tx => rfl
    | block b => exact if_pos (h pkt hpkt)
  rw [hnone] at hpublic
  simp at hpublic

theorem publicTo_neighbors {neighbors : List InterfaceId} (hnodup : neighbors.Nodup) {id : InterfaceId}
    (hid : id ∈ neighbors) (source : InterfaceId) {msg : PoWMessage} (hmsg : msg.publicBlock?.isSome) :
    publicTo id (neighbors.map fun dest => ⟨source, dest, msg⟩) = [msg] := by
  unfold publicTo
  rw [List.filter_map, List.map_map]
  have hfilter : neighbors.filter ((fun pkt => decide (pkt.target = id ∧ pkt.message.publicBlock?.isSome)) ∘
      fun dest => (⟨source, dest, msg⟩ : Packet PoWMessage)) = [id] := by
    have hbeq : ((fun pkt => decide (pkt.target = id ∧ pkt.message.publicBlock?.isSome)) ∘
        fun dest => (⟨source, dest, msg⟩ : Packet PoWMessage)) = fun dest => dest == id := by
      funext dest
      rw [Function.comp_apply, beq_eq_decide]
      simp [hmsg]
    rw [hbeq, List.filter_beq, hnodup.count, if_pos hid]
    rfl
  rw [hfilter]
  rfl

theorem publicTo_broadcasts {neighbors : List InterfaceId} (hnodup : neighbors.Nodup) {id : InterfaceId}
    (hid : id ∈ neighbors) (source : InterfaceId) {msgs : List PoWMessage}
    (hmsgs : ∀ msg ∈ msgs, msg.publicBlock?.isSome) :
    publicTo id (msgs.flatMap fun msg => neighbors.map fun dest => ⟨source, dest, msg⟩) = msgs := by
  induction msgs with
  | nil => rfl
  | cons msg msgs ih =>
    rw [List.flatMap_cons, publicTo_append,
      publicTo_neighbors hnodup hid source (hmsgs msg List.mem_cons_self),
      ih fun msg hmsg => hmsgs msg (List.mem_cons_of_mem _ hmsg)]
    rfl

/-- Since `init`, every neighbour has been sent what the fault has broadcast, and no other block in public. -/
structure Serves (init s : Miner) : Prop where
  neighbors : s.neighbors = init.neighbors
  sent : ∃ sent, s.outbox = init.outbox ++ sent ∧ ∀ id ∈ init.neighbors, publicTo id sent = s.broadcasts

theorem messages_public {r : Release} (h : Withholds lengthOf r.withheld) :
    ∀ msg ∈ r.messages, msg.publicBlock?.isSome := by
  intro msg hmsg
  obtain ⟨stored, hstored, rfl⟩ := List.mem_map.mp hmsg
  have hmem := (List.perm_insertionSort ParasiteFault.releaseOrder r.withheld).mem_iff.mp hstored
  obtain ⟨b, hb, -⟩ := (h.sound stored hmem).publicBlock?
  rw [hb]
  rfl

/-! ## A call and a run -/

theorem Custody.tryRelease {init : Miner} (hnodup : init.neighbors.Nodup) (hparasite : s.parasite = some f)
    (h : Custody lengthOf handed s f) (hserves : Serves init s) :
    ∃ f', s.tryRelease.parasite = some f' ∧ f'.collaborators = f.collaborators ∧
      Custody lengthOf handed s.tryRelease f' ∧ (s.tryRelease.Once f' ↔ s.Once f) ∧
      Serves init s.tryRelease := by
  rw [tryRelease_eq hparasite]
  by_cases hreleases : f.Releases
  · rw [if_pos hreleases]
    refine ⟨f.released, rfl, rfl, h.released, once_released, hserves.neighbors, ?_⟩
    obtain ⟨sent, hsent, hpublic⟩ := hserves.sent
    refine ⟨sent ++ (Release.messages ⟨f.privateChain, s.received⟩).flatMap fun msg =>
      s.neighbors.map fun dest => ⟨s.publicId, dest, msg⟩, ?_, fun id hid => ?_⟩
    · rw [← List.append_assoc, ← hsent]
    · have hmessages := messages_public (r := ⟨f.privateChain, s.received⟩) h.chain
      rw [publicTo_append, hpublic id hid, publicTo_broadcasts (hserves.neighbors ▸ hnodup)
        (hserves.neighbors ▸ hid) s.publicId hmessages]
      unfold broadcasts
      rw [List.flatMap_append, List.flatMap_singleton]
  · rw [if_neg hreleases]
    exact ⟨f, hparasite, rfl, h, Iff.rfl, hserves⟩

theorem Custody.call {init : Miner} (hnodup : init.neighbors.Nodup) (hparasite : s.parasite = some f)
    (h : Custody lengthOf handed s f) (hserves : Serves init s) {c : HookCall}
    (hc : ∀ b ∈ c.handed? f.collaborators, b.Sound lengthOf) :
    ∃ f', (s.call c).parasite = some f' ∧ f'.collaborators = f.collaborators ∧
      Custody lengthOf (handed ++ ((c.handed? f.collaborators).map AnnouncedBlock.hash).toList) (s.call c) f' ∧
      ((s.call c).Once f' ↔ s.Once f ∧ ∀ b ∈ c.handed? f.collaborators, b.hash ∉ s.releasedHashes) ∧
      Serves init (s.call c) := by
  rcases call_cases hparasite c with ⟨hnone, publicHeight, hcall⟩ | ⟨b, msg, flag, sent, hb, hmsg, hprivate, hcall⟩
  · rw [hnone, hcall]
    refine ⟨_, rfl, rfl, ?_, ⟨fun honce => ⟨honce, fun b hb => ?_⟩, And.left⟩, hserves.neighbors, hserves.sent⟩
    · rw [Option.map_none, Option.toList_none, List.append_nil]
      exact ⟨h.hashes, h.chain, h.releases, ⟨h.highest.bound, h.highest.attained, h.highest.zero⟩, h.kept⟩
    · cases hb
  · have hcollaborators : (f.storePrivate msg).collaborators = f.collaborators := by
      unfold ParasiteFault.storePrivate
      rw [hmsg]
      dsimp only
      split_ifs <;> rfl
    have hstored := h.storePrivate (hc b hb) hmsg
    have honce := h.once_storePrivate (hc b hb) hmsg
    have hserves' : Serves init { s with
        parasite := some (f.storePrivate msg)
        outbox := s.outbox ++ sent } := by
      refine ⟨hserves.neighbors, ?_⟩
      obtain ⟨before, hbefore, hpublic⟩ := hserves.sent
      refine ⟨before ++ sent, ?_, fun id hid => ?_⟩
      · rw [hbefore, List.append_assoc]
      · rw [publicTo_append, publicTo_private hprivate, List.append_nil, hpublic id hid]
        rfl
    have hcustody : Custody lengthOf (handed ++ [b.hash]) { s with
        parasite := some (f.storePrivate msg)
        outbox := s.outbox ++ sent } (f.storePrivate msg) :=
      ⟨hstored.hashes, hstored.chain, hstored.releases, hstored.highest, hstored.kept⟩
    obtain ⟨f', hparasite', hcollaborators', h', honce', hserves'⟩ := hcustody.tryRelease hnodup rfl hserves'
    rw [hb, hcall, Option.map_some, Option.toList_some]
    refine ⟨f', hparasite', hcollaborators'.trans hcollaborators, h', ?_, hserves'⟩
    rw [honce']
    refine honce.trans (and_congr_right fun _ => ⟨fun hnew b' hb' => ?_, fun hnew => hnew b rfl⟩)
    obtain rfl := Option.some.inj hb'
    exact hnew

def handedHashes (collaborators : List InterfaceId) (calls : List HookCall) : List String :=
  calls.filterMap fun c => (c.handed? collaborators).map AnnouncedBlock.hash

def NeverAgain (collaborators : List InterfaceId) : Miner → List HookCall → Prop
  | _, [] => True
  | s, c :: calls =>
    (∀ b ∈ c.handed? collaborators, b.hash ∉ s.releasedHashes) ∧ NeverAgain collaborators (s.call c) calls

theorem handedHashes_cons (collaborators : List InterfaceId) (c : HookCall) (calls : List HookCall) :
    handedHashes collaborators (c :: calls) =
      ((c.handed? collaborators).map AnnouncedBlock.hash).toList ++ handedHashes collaborators calls := by
  unfold handedHashes
  rw [List.filterMap_cons]
  cases c.handed? collaborators <;> rfl

theorem Custody.calls {init : Miner} (hnodup : init.neighbors.Nodup) (hparasite : s.parasite = some f)
    (h : Custody lengthOf handed s f) (hserves : Serves init s) {calls : List HookCall}
    (hcalls : ∀ c ∈ calls, ∀ b ∈ c.handed? f.collaborators, b.Sound lengthOf) :
    ∃ f', (calls.foldl Miner.call s).parasite = some f' ∧
      Custody lengthOf (handed ++ handedHashes f.collaborators calls) (calls.foldl Miner.call s) f' ∧
      ((calls.foldl Miner.call s).Once f' ↔ s.Once f ∧ s.NeverAgain f.collaborators calls) ∧
      Serves init (calls.foldl Miner.call s) := by
  induction calls generalizing s f handed with
  | nil =>
    refine ⟨f, hparasite, ?_, (and_iff_left trivial).symm, hserves⟩
    rw [handedHashes, List.filterMap_nil, List.append_nil]
    exact h
  | cons c calls ih =>
    obtain ⟨f₁, hparasite₁, hcollaborators, h₁, honce₁, hserves₁⟩ :=
      h.call hnodup hparasite hserves (hcalls c List.mem_cons_self)
    have hrest : ∀ c ∈ calls, ∀ b ∈ c.handed? f₁.collaborators, b.Sound lengthOf := by
      rw [hcollaborators]
      exact fun c hc => hcalls c (List.mem_cons_of_mem _ hc)
    obtain ⟨f₂, hparasite₂, h₂, honce₂, hserves₂⟩ := ih hparasite₁ h₁ hserves₁ hrest
    rw [hcollaborators] at h₂ honce₂
    refine ⟨f₂, hparasite₂, ?_, ?_, hserves₂⟩
    · rw [handedHashes_cons, ← List.append_assoc]
      exact h₂
    · rw [List.foldl_cons, honce₂, honce₁, NeverAgain, and_assoc]

theorem Custody.neverAgain {init : Miner} (hnodup : init.neighbors.Nodup) (hparasite : s.parasite = some f)
    (h : Custody lengthOf handed s f) (hserves : Serves init s) {calls : List HookCall}
    (hcalls : ∀ c ∈ calls, ∀ b ∈ c.handed? f.collaborators, b.Sound lengthOf)
    (hdistinct : (handed ++ handedHashes f.collaborators calls).Nodup) : s.NeverAgain f.collaborators calls := by
  induction calls generalizing s f handed with
  | nil => trivial
  | cons c calls ih =>
    obtain ⟨f₁, hparasite₁, hcollaborators, h₁, -, hserves₁⟩ :=
      h.call hnodup hparasite hserves (hcalls c List.mem_cons_self)
    rw [handedHashes_cons, ← List.append_assoc] at hdistinct
    refine ⟨fun b hb hreleased => ?_, ?_⟩
    · have hhanded : b.hash ∈ handed := (h.kept _).mpr (List.mem_append_right _ hreleased)
      have hdisjoint := (List.nodup_append.mp (List.nodup_append.mp hdistinct).1).2.2
      rw [hb, Option.map_some, Option.toList_some] at hdisjoint
      exact hdisjoint _ hhanded _ (List.mem_singleton_self _) rfl
    · rw [← hcollaborators] at hdistinct ⊢
      refine ih hparasite₁ ?_ hserves₁ ?_ hdistinct
      · rw [hcollaborators]
        exact h₁
      · rw [hcollaborators]
        exact fun c hc => hcalls c (List.mem_cons_of_mem _ hc)

/-! ## Nothing is lost -/

theorem announcedHashes_broadcasts (h : ∀ r ∈ s.releases, Withholds lengthOf r.withheld) :
    (announcedHashes s.broadcasts).Perm s.releasedHashes := by
  unfold announcedHashes broadcasts releasedHashes
  rw [List.filterMap_flatMap]
  exact List.Perm.flatMap_left _ fun r hr => announcedHashes_messages (h r hr)

/-- **Withheld blocks are never lost.** After any calls of the hooks of a new fault that hand over different
blocks, each block handed over is withheld, or has been broadcast, once; every neighbour has been sent all
broadcasts; each release has broadcast all withheld blocks, unmarked and parents first; and `privateHeight` is
the height of the highest block that is withheld. -/
theorem withheld_never_lost {lead : Int} {collaborators : List InterfaceId} {init : Miner}
    (hfault : init.parasite = some (.new lead collaborators)) (hreleases : init.releases = [])
    (hneighbors : init.neighbors.Nodup) {calls : List HookCall}
    (hsound : ∀ c ∈ calls, ∀ b ∈ c.handed? collaborators, b.Sound lengthOf)
    (hdistinct : (handedHashes collaborators calls).Nodup) :
    ∃ f, (calls.foldl Miner.call init).parasite = some f ∧
      (∀ hash ∈ handedHashes collaborators calls, (withheldHashes f).count hash +
        (announcedHashes (calls.foldl Miner.call init).broadcasts).count hash = 1) ∧
      (∃ sent, (calls.foldl Miner.call init).outbox = init.outbox ++ sent ∧
        ∀ id ∈ init.neighbors, publicTo id sent = (calls.foldl Miner.call init).broadcasts) ∧
      (∀ r ∈ (calls.foldl Miner.call init).releases,
        r.messages.Perm (r.withheld.map fun stored => { stored.message with parasitePrivate := false }) ∧
        ParentsFirst r.messages) ∧
      f.Highest := by
  have hinit : Custody lengthOf [] init (.new lead collaborators) := custody_new hreleases
  have hserves : Serves init init := by
    refine ⟨rfl, [], by rw [List.append_nil], fun id _ => ?_⟩
    rw [broadcasts, hreleases]
    rfl
  have honce : init.Once (.new lead collaborators) := by
    rw [Once, releasedHashes, hreleases]
    exact List.nodup_nil
  obtain ⟨f, hparasite, hcustody, honce', hserves'⟩ := hinit.calls hneighbors hfault hserves hsound
  have hagain := hinit.neverAgain hneighbors hfault hserves hsound hdistinct
  have hplaces := honce'.mpr ⟨honce, hagain⟩
  refine ⟨f, hparasite, fun hash hhash => ?_, hserves'.sent, fun r hr => ?_, hcustody.highest⟩
  · have hmem := (hcustody.kept hash).mp hhash
    have hcount := hplaces.count (a := hash)
    rw [if_pos hmem, List.count_append] at hcount
    rw [(announcedHashes_broadcasts hcustody.releases).count_eq]
    exact hcount
  · exact ⟨r.messages_perm, parentsFirst_messages (hcustody.releases r hr)⟩

/-- A block of its own is released at once by a fault with lead 1; a collaborator's block on it is too. -/
theorem withheld_never_lost_twoBlocks :
    let own : AnnouncedBlock := ⟨"0:1:0", [GENESIS], 0, 1, false, {}, 0⟩
    let other : AnnouncedBlock := ⟨"3:1:1", ["0:1:0"], 3, 2, true, {}, 1⟩
    let init : Miner := { publicId := 0, neighbors := [1, 3], parasite := some (.new 1 [0, 3]) }
    let calls : List HookCall := [.onSend ⟨.block own, 0, false⟩ .broadcast, .onReceive ⟨.block other, 3, true⟩ 3]
    ∃ f, (calls.foldl Miner.call init).parasite = some f ∧
      (∀ hash ∈ ["0:1:0", "3:1:1"], (withheldHashes f).count hash +
        (announcedHashes (calls.foldl Miner.call init).broadcasts).count hash = 1) ∧ f.Highest := by
  intro own other init calls
  let lengthOf : String → Nat := fun hash => if hash = "0:1:0" then 1 else if hash = "3:1:1" then 2 else 0
  have hsound : ∀ c ∈ calls, ∀ b ∈ c.handed? [0, 3], b.Sound lengthOf := by
    intro c hc b hb
    rcases List.mem_cons.mp hc with rfl | hc
    · obtain rfl := Option.some.inj hb
      exact ⟨by decide, by decide, by decide⟩
    · obtain rfl := List.mem_singleton.mp hc
      obtain rfl := Option.some.inj hb
      exact ⟨by decide, by decide, by decide⟩
  have hhanded : handedHashes [0, 3] calls = ["0:1:0", "3:1:1"] := by decide
  have hdistinct : (handedHashes [0, 3] calls).Nodup := by
    rw [hhanded]
    decide
  obtain ⟨f, hparasite, hplaces, -, -, hhighest⟩ :=
    @withheld_never_lost lengthOf 1 [0, 3] init rfl rfl (by decide) calls hsound hdistinct
  rw [hhanded] at hplaces
  exact ⟨f, hparasite, hplaces, hhighest⟩

end Miner

end Quantas
