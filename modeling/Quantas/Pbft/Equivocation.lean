import Quantas.Common.Faults
import Quantas.Lib.Json
import Quantas.Pbft.Message

/-!
# PBFT: equivocation on the wire

`EquivocateFault::onSend` rewrites the JSON of a multicast. Here messages are JSON values: `onSend` is
translated as it stands, its assignments included, and an exception of the JSON library is `none`.
`variants_phase` and `variants_checkpoint` say that on the messages of the consensus it makes the two
variants that `EquivocateFault.variants` makes of their fields.
-/

namespace Quantas.Pbft

open Lib (Json)

/-! ## The messages as JSON -/

section ToJson
variable (consensusId : Int)

def ClientRequest.toJson (r : ClientRequest) : Json :=
  .obj [("consensusId", .num consensusId), ("fault_flip", .bool r.faultFlip),
    ("requestId", .num r.requestId), ("roundSubmitted", .num r.roundSubmitted),
    ("submitterId", .num r.submitterId), ("type", .str "Request")]

def PhaseType.toString : PhaseType → String
  | .prePrepare => "pre-prepare"
  | .prepare => "prepare"
  | .commit => "commit"

def PhaseMessage.toJson (m : PhaseMessage) : Json :=
  .obj [("MessageType", .str m.messageType.toString), ("consensusId", .num consensusId),
    ("from_id", .num m.fromId),
    ("proposal", .obj [("Request", m.request.toJson consensusId),
      ("view", .num m.proposalView)]),
    ("seqNum", .num m.seqNum), ("type", .str "Consensus"), ("view", .num m.view)]

def Checkpoint.toJson (m : Checkpoint) : Json :=
  .obj [("MessageType", .str "checkpoint"), ("consensusId", .num consensusId), ("digest", .str m.digest),
    ("from_id", .num m.fromId), ("seqNum", .num m.seqNum), ("type", .str "Consensus"), ("view", .num m.view)]

end ToJson

namespace Wire

/-! ## The fault -/

structure EquivocateFault where
  quorumA : Finset InterfaceId
  quorumB : Finset InterfaceId
  applicableMessageTypes : List String

/-- The groups of `initParameters`: every other member, from the first one on. -/
def initQuorums : List InterfaceId → Finset InterfaceId × Finset InterfaceId
  | [] => (∅, ∅)
  | id :: ids => (insert id (initQuorums ids).2, (initQuorums ids).1)

def types : List String := ["pre-prepare", "prepare", "commit", "checkpoint"]

/-- Intersection of a target set, in its order, with a group. -/
def intersectTargets (src : List InterfaceId) (filt : Finset InterfaceId) : List InterfaceId :=
  src.filter (· ∈ filt)

def flipPath : List String := ["proposal", "Request", "fault_flip"]

/-- `if (!…contains(…)) msg… = json::object()`. -/
def ensureObject (path : List String) (present : Bool) (msg : Json) : Option Json :=
  if present then some msg else Json.assign (.obj []) path msg

/-- `msg["proposal"]["Request"]["fault_flip"] = b`, after the objects on the way have been made sure of. -/
def setFlip (b : Bool) (msg : Json) : Option Json := do
  let msg ← ensureObject ["proposal"] (msg.contains "proposal") msg
  let msg ← ensureObject ["proposal", "Request"]
    (((msg.member "proposal").getD .null).contains "Request") msg
  Json.assign (.bool b) flipPath msg

section Fault
variable (altDigest : Json → String)

/-- The two versions of a message, the normal one first. `altDigest` is the hash of a message that has no
digest of its own. -/
def variants (mt : String) (msg : Json) : Option (Json × Json) :=
  if mt = "checkpoint" then
    match msg.member "digest" with
    | some (.str digest) => do
      let s := EquivocateFault.unflipped digest
      let normal ← Json.assign (.str s) ["digest"] msg
      let alt ← Json.assign (.str (s ++ "#flip")) ["digest"] msg
      some (normal, alt)
    | _ => do
      let alt ← Json.assign (.str (altDigest msg)) ["digest"] msg
      some (msg, alt)
  else do
    let normal ← setFlip false msg
    let alt ← setFlip true msg
    some (normal, alt)

/-- What the network interface is handed: the normal version for group A, then the other one for
group B. -/
def EquivocateFault.sends (fault : EquivocateFault) (normal alt : Json) (targets : List InterfaceId) :
    List (InterfaceId × Json) :=
  (intersectTargets targets fault.quorumA).map (·, normal) ++
    (intersectTargets targets fault.quorumB).map (·, alt)

/-- `onSend`, where `handed` is what the network interface was handed before. -/
def EquivocateFault.onSend (fault : EquivocateFault) (handed : List (InterfaceId × Json)) (msg : Json)
    (sendType : SendType) (targets : List InterfaceId) :
    Option (List (InterfaceId × Json) × Json × Bool) :=
  if sendType ≠ .multicast then some (handed, msg, false)
  else
    match msg.member "MessageType" with
    | none => some (handed, msg, false)
    | some (.str mt) =>
      if mt ∉ fault.applicableMessageTypes ∨ targets = [] then some (handed, msg, false)
      else do
        let (normal, alt) ← variants altDigest mt msg
        some (handed ++ fault.sends normal alt targets, normal, true)
    | some _ => none

def EquivocateFault.asFault (fault : EquivocateFault) (id : Nat) : Fault (List (InterfaceId × Json)) Json where
  id := id
  overridesSendType t := t = .multicast
  onSend handed msg sendType targets :=
    (fault.onSend altDigest handed msg sendType targets).getD (handed, msg, false)

end Fault

/-! ## The messages of the consensus -/

/-- A pre-prepare, prepare or commit message: what it has of a proposal, and of a request in it, are
objects. -/
structure IsPhase (msg : Json) : Prop where
  type : ∃ mt ∈ ["pre-prepare", "prepare", "commit"], msg.member "MessageType" = some (.str mt)
  shape : msg.Open flipPath

/-- A checkpoint message whose digest is `digest`, flipped or not. -/
structure IsCheckpoint (digest : String) (msg : Json) : Prop where
  type : msg.member "MessageType" = some (.str "checkpoint")
  shape : msg.Open ["digest"]
  decimal : ∀ c ∈ digest.toList, c.isDigit = true
  digest : msg.member "digest" = some (.str digest) ∨ msg.member "digest" = some (.str (digest ++ "#flip"))

/-! ## The two versions -/

theorem not_contains {j : Json} {key : String} (h : j.contains key = false) : j.member key = none := by
  rw [Json.contains, Option.isSome_eq_false_iff, Option.isNone_iff_eq_none] at h
  exact h

theorem ensureObject_spec {w msg j : Json} {path rest : List String} {present : Bool} (hrest : rest ≠ [])
    (hpresent : present = false → Json.get? path msg = none)
    (hj : Json.assign w (path ++ rest) msg = some j) :
    ∃ msg', ensureObject path present msg = some msg' ∧ Json.assign w (path ++ rest) msg' = some j := by
  cases present with
  | true => exact ⟨msg, rfl, hj⟩
  | false =>
    obtain ⟨msg', hmsg'⟩ := Json.assign_above hj (.obj [])
    refine ⟨msg', hmsg', ?_⟩
    rw [Json.assign_fill hrest (hpresent rfl) hmsg', hj]

theorem setFlip_eq {msg : Json} (h : msg.Open flipPath) (b : Bool) :
    setFlip b msg = Json.assign (.bool b) flipPath msg := by
  obtain ⟨j, hj⟩ := h.assign (.bool b)
  have hbelow : Json.assign (.bool b) (["proposal"] ++ ["Request", "fault_flip"]) msg = some j := hj
  have hnone : msg.contains "proposal" = false → Json.get? ["proposal"] msg = none := by
    intro hnone
    rw [Json.get?_singleton, not_contains hnone]
  obtain ⟨msg₁, hfirst, hj₁⟩ := ensureObject_spec (by simp) hnone hbelow
  have hbelow₁ : Json.assign (.bool b) (["proposal", "Request"] ++ ["fault_flip"]) msg₁ = some j := hj₁
  have hnone₁ : ((msg₁.member "proposal").getD .null).contains "Request" = false →
      Json.get? ["proposal", "Request"] msg₁ = none := by
    intro hnone
    rw [Json.get?]
    cases hproposal : msg₁.member "proposal" with
    | none => rfl
    | some proposal =>
      rw [hproposal, Option.getD_some] at hnone
      rw [Option.bind_some, Json.get?, not_contains hnone, Option.bind_none]
  obtain ⟨msg₂, hsecond, hj₂⟩ := ensureObject_spec (by simp) hnone₁ hbelow₁
  have hj₂' : Json.assign (.bool b) flipPath msg₂ = some j := hj₂
  unfold setFlip
  rw [hfirst, Option.bind_eq_bind, Option.bind_some, hsecond, Option.bind_some, hj₂', hj]

theorem unflipped_decimal {digest : String} (h : ∀ c ∈ digest.toList, c.isDigit = true) :
    EquivocateFault.unflipped digest = digest := by
  unfold EquivocateFault.unflipped
  refine if_neg fun hsuffix => ?_
  have hdigit := h '#' (hsuffix.mem (by decide))
  exact absurd hdigit (by decide)

theorem unflipped_flipped (digest : String) :
    EquivocateFault.unflipped (digest ++ "#flip") = digest := by
  have hlist : (digest ++ "#flip").toList = digest.toList ++ "#flip".toList := String.toList_append
  have hlength : (digest ++ "#flip").length - 5 = digest.toList.length := by
    rw [String.length_append, String.length_toList]
    rfl
  unfold EquivocateFault.unflipped
  rw [if_pos (by rw [hlist]; exact List.suffix_append _ _), hlist, hlength, List.take_left',
    String.ofList_toList]
  rfl

/-- The versions are the message with the flag of the request set. -/
structure PhaseVersions (msg normal alt : Json) : Prop where
  normal : Json.assign (.bool false) flipPath msg = some normal
  alt : Json.assign (.bool true) flipPath msg = some alt

/-- The versions are the message with the digest without and with a flip. -/
structure CheckpointVersions (digest : String) (msg normal alt : Json) : Prop where
  normal : Json.assign (.str digest) ["digest"] msg = some normal
  alt : Json.assign (.str (digest ++ "#flip")) ["digest"] msg = some alt

section Versions
variable (altDigest : Json → String) {msg : Json}

theorem variants_isPhase (h : IsPhase msg) : ∃ mt normal alt, mt ∈ types ∧
    msg.member "MessageType" = some (.str mt) ∧ variants altDigest mt msg = some (normal, alt) ∧
    PhaseVersions msg normal alt := by
  obtain ⟨mt, hmt, hmember⟩ := h.type
  obtain ⟨normal, hnormal⟩ := h.shape.assign (.bool false)
  obtain ⟨alt, halt⟩ := h.shape.assign (.bool true)
  have hne : mt ≠ "checkpoint" := by
    rintro rfl
    exact absurd hmt (by decide)
  refine ⟨mt, normal, alt, ?_, hmember, ?_, hnormal, halt⟩
  · exact List.mem_append_left ["checkpoint"] hmt
  · rw [variants, if_neg hne, setFlip_eq h.shape, setFlip_eq h.shape, hnormal, halt]
    rfl

theorem variants_isCheckpoint {digest : String} (h : IsCheckpoint digest msg) : ∃ normal alt,
    variants altDigest "checkpoint" msg = some (normal, alt) ∧ CheckpointVersions digest msg normal alt := by
  obtain ⟨normal, hnormal⟩ := h.shape.assign (.str digest)
  obtain ⟨alt, halt⟩ := h.shape.assign (.str (digest ++ "#flip"))
  refine ⟨normal, alt, ?_, hnormal, halt⟩
  rw [variants, if_pos rfl]
  rcases h.digest with hdigest | hdigest
  · rw [hdigest]
    dsimp only
    rw [unflipped_decimal h.decimal, hnormal, halt]
    rfl
  · rw [hdigest]
    dsimp only
    rw [unflipped_flipped, hnormal, halt]
    rfl

end Versions

theorem PhaseVersions.again {msg normal alt : Json} (h : IsPhase msg) (hv : PhaseVersions msg normal alt) :
    ∀ m ∈ [normal, alt], IsPhase m ∧ PhaseVersions m normal alt := by
  have hversion : ∀ m value, Json.assign value flipPath msg = some m →
      IsPhase m ∧ PhaseVersions m normal alt := by
    intro m value hm
    obtain ⟨mt, hmt, hmember⟩ := h.type
    have htype := Json.SameBut.of_assign hm ["MessageType"] (by decide) (by decide)
    rw [Json.get?_singleton, Json.get?_singleton, hmember] at htype
    refine ⟨⟨⟨mt, hmt, htype⟩, h.shape.of_assign hm⟩, ?_, ?_⟩
    · rw [Json.assign_assign hm, hv.normal]
    · rw [Json.assign_assign hm, hv.alt]
  intro m hm
  rcases List.mem_cons.mp hm with rfl | hm
  · exact hversion m _ hv.normal
  · obtain rfl := List.mem_singleton.mp hm
    exact hversion m _ hv.alt

theorem CheckpointVersions.again {digest : String} {msg normal alt : Json} (h : IsCheckpoint digest msg)
    (hv : CheckpointVersions digest msg normal alt) :
    ∀ m ∈ [normal, alt], IsCheckpoint digest m ∧ CheckpointVersions digest m normal alt := by
  have hversion : ∀ m value, Json.assign (.str value) ["digest"] msg = some m →
      (value = digest ∨ value = digest ++ "#flip") →
      IsCheckpoint digest m ∧ CheckpointVersions digest m normal alt := by
    intro m value hm hvalue
    have htype := Json.SameBut.of_assign hm ["MessageType"] (by decide) (by decide)
    rw [Json.get?_singleton, Json.get?_singleton, h.type] at htype
    have hnew := Json.get?_assign hm
    rw [Json.get?_singleton] at hnew
    refine ⟨⟨htype, h.shape.of_assign hm, h.decimal, ?_⟩, ?_, ?_⟩
    · rcases hvalue with rfl | rfl
      · exact .inl hnew
      · exact .inr hnew
    · rw [Json.assign_assign hm, hv.normal]
    · rw [Json.assign_assign hm, hv.alt]
  intro m hm
  rcases List.mem_cons.mp hm with rfl | hm
  · exact hversion m _ hv.normal (.inl rfl)
  · obtain rfl := List.mem_singleton.mp hm
    exact hversion m _ hv.alt (.inr rfl)

/-! ## What the consensus sends -/

section Sent
variable (altDigest : Json → String) (consensusId : Int)

theorem member_messageType (m : PhaseMessage) :
    (m.toJson consensusId).member "MessageType" = some (.str m.messageType.toString) := rfl

theorem isPhase_toJson (m : PhaseMessage) : IsPhase (m.toJson consensusId) := by
  refine ⟨⟨m.messageType.toString, ?_, member_messageType consensusId m⟩, ?_⟩
  · cases m.messageType <;> decide
  · refine ⟨⟨_, rfl⟩, fun proposal hproposal => ?_⟩
    obtain rfl := Option.some.inj hproposal
    refine ⟨⟨_, rfl⟩, fun request hrequest => ?_⟩
    obtain rfl := Option.some.inj hrequest
    exact ⟨⟨_, rfl⟩, fun _ _ => trivial⟩

theorem isCheckpoint_toJson (m : Checkpoint) {digest : String}
    (hdecimal : ∀ c ∈ digest.toList, c.isDigit = true)
    (hdigest : m.digest = digest ∨ m.digest = digest ++ "#flip") :
    IsCheckpoint digest (m.toJson consensusId) := by
  have hmember : (m.toJson consensusId).member "digest" = some (.str m.digest) := rfl
  refine ⟨rfl, ⟨⟨_, rfl⟩, fun _ _ => trivial⟩, hdecimal, ?_⟩
  rw [hmember]
  rcases hdigest with hdigest | hdigest
  · exact .inl (by rw [hdigest])
  · exact .inr (by rw [hdigest])

theorem setFlip_toJson (m : PhaseMessage) (b : Bool) :
    setFlip b (m.toJson consensusId) =
      some (PhaseMessage.toJson consensusId { m with request := { m.request with faultFlip := b } }) := by
  have hproposal : ¬ "proposal" < "MessageType" ∧ ¬ "proposal" < "consensusId" ∧
      ¬ "proposal" < "from_id" := by decide
  have hflip : ¬ "fault_flip" < "consensusId" := by decide
  simp [setFlip, ensureObject, flipPath, PhaseMessage.toJson, ClientRequest.toJson, Json.contains, Json.member,
    Json.assign, Json.insertMember, List.lookup, hproposal, hflip]

theorem variants_phase (m : PhaseMessage) :
    (variants altDigest m.messageType.toString (m.toJson consensusId)) =
      some (PhaseMessage.toJson consensusId { m with request := { m.request with faultFlip := false } },
        PhaseMessage.toJson consensusId { m with request := { m.request with faultFlip := true } }) := by
  have hne : m.messageType.toString ≠ "checkpoint" := by
    cases m.messageType <;> decide
  rw [variants, if_neg hne, setFlip_toJson, setFlip_toJson]
  rfl

theorem variants_checkpoint (m : Checkpoint) :
    variants altDigest "checkpoint" (m.toJson consensusId) =
      some (Checkpoint.toJson consensusId { m with digest := Pbft.EquivocateFault.unflipped m.digest },
        Checkpoint.toJson consensusId
          { m with digest := Pbft.EquivocateFault.unflipped m.digest ++ "#flip" }) := by
  have hdigest : ¬ "digest" < "MessageType" ∧ ¬ "digest" < "consensusId" := by decide
  simp [variants, Checkpoint.toJson, Json.member, Json.assign, Json.insertMember, List.lookup, hdigest]

end Sent

/-! ## The audience -/

theorem filter_map_target {targets : List InterfaceId} (hnodup : targets.Nodup) (S : Finset InterfaceId)
    (m : Json) (id : InterfaceId) :
    ((intersectTargets targets S).map (·, m)).filter (fun x => x.1 = id) =
      if id ∈ targets ∧ id ∈ S then [(id, m)] else [] := by
  induction targets with
  | nil => simp [intersectTargets]
  | cons t ts ih =>
    rw [List.nodup_cons] at hnodup
    have hrest := ih hnodup.2
    unfold intersectTargets at hrest ⊢
    by_cases hid : t = id
    · subst hid
      rw [if_neg fun h => hnodup.1 h.1] at hrest
      by_cases hS : t ∈ S
      · simp [hS, hrest]
      · simp [hS, hrest]
    · have hskip : (if id ∈ t :: ts ∧ id ∈ S then [(id, m)] else []) =
          if id ∈ ts ∧ id ∈ S then [(id, m)] else [] := by
        simp [Ne.symm hid]
      rw [hskip, ← hrest]
      by_cases hS : t ∈ S
      · simp [hS, hid]
      · simp [hS]

theorem sends_partition {fault : EquivocateFault} (hdisjoint : Disjoint fault.quorumA fault.quorumB)
    {targets : Finset InterfaceId} (hcover : targets ⊆ fault.quorumA ∪ fault.quorumB) (normal alt : Json)
    (id : InterfaceId) :
    (fault.sends normal alt (targets.sort (· ≤ ·))).filter (fun x => x.1 = id) =
      if id ∈ targets then [(id, if id ∈ fault.quorumA then normal else alt)] else [] := by
  have hnodup := targets.sort_nodup (· ≤ ·)
  unfold EquivocateFault.sends
  rw [List.filter_append, filter_map_target hnodup, filter_map_target hnodup]
  simp only [Finset.mem_sort]
  by_cases hid : id ∈ targets
  · have hgroup := Finset.mem_union.mp (hcover hid)
    by_cases hA : id ∈ fault.quorumA
    · have hB : id ∉ fault.quorumB := fun hB => Finset.disjoint_left.mp hdisjoint hA hB
      simp [hid, hA, hB]
    · have hB := hgroup.resolve_left hA
      simp [hid, hA, hB]
  · simp [hid]

theorem initQuorums_spec {ids : List InterfaceId} (hnodup : ids.Nodup) :
    Disjoint (initQuorums ids).1 (initQuorums ids).2 ∧
      (initQuorums ids).1 ∪ (initQuorums ids).2 = ids.toFinset := by
  induction ids with
  | nil => exact ⟨Finset.disjoint_empty_left _, rfl⟩
  | cons id ids ih =>
    rw [List.nodup_cons] at hnodup
    obtain ⟨hdisjoint, hunion⟩ := ih hnodup.2
    have hnew : id ∉ (initQuorums ids).1 := by
      intro hid
      apply hnodup.1
      rw [← List.mem_toFinset, ← hunion]
      exact Finset.mem_union_left _ hid
    rw [initQuorums, List.toFinset_cons, ← hunion]
    refine ⟨Finset.disjoint_insert_left.mpr ⟨hnew, hdisjoint.symm⟩, ?_⟩
    rw [Finset.insert_union, Finset.union_comm]

/-! ## Equivocation partitions its audience -/

section Partition
variable (altDigest : Json → String) {fault : EquivocateFault} {msg : Json}

def Applies (msg : Json) : Prop := IsPhase msg ∨ ∃ digest, IsCheckpoint digest msg

theorem onSend_of_variants (htypes : fault.applicableMessageTypes = types) {mt : String}
    (hmt : mt ∈ types) (hmember : msg.member "MessageType" = some (.str mt)) {normal alt : Json}
    (hvariants : variants altDigest mt msg = some (normal, alt)) (handed : List (InterfaceId × Json))
    {targets : List InterfaceId} (hsome : targets ≠ []) :
    fault.onSend altDigest handed msg .multicast targets =
      some (handed ++ fault.sends normal alt targets, normal, true) := by
  have happlies : ¬ (mt ∉ fault.applicableMessageTypes ∨ targets = []) := by
    rw [htypes]
    exact not_or.mpr ⟨not_not.mpr hmt, hsome⟩
  unfold EquivocateFault.onSend
  rw [if_neg (not_not.mpr rfl), hmember]
  dsimp only
  rw [if_neg happlies, hvariants]
  rfl

theorem IsCheckpoint.unflipped {digest : String} (h : IsCheckpoint digest msg) {s : String}
    (hs : msg.member "digest" = some (.str s)) : EquivocateFault.unflipped s = digest := by
  rcases h.digest with hdigest | hdigest
  · rw [hs, Option.some.injEq, Json.str.injEq] at hdigest
    rw [hdigest, unflipped_decimal h.decimal]
  · rw [hs, Option.some.injEq, Json.str.injEq] at hdigest
    rw [hdigest, unflipped_flipped]

theorem IsCheckpoint.not_isPhase {digest : String} (h : IsCheckpoint digest msg) : ¬ IsPhase msg := by
  intro hphase
  obtain ⟨mt, hmt, hmember⟩ := hphase.type
  rw [h.type, Option.some.injEq, Json.str.injEq] at hmember
  rw [← hmember] at hmt
  exact absurd hmt (by decide)

theorem exists_versions (htypes : fault.applicableMessageTypes = types) (h : Applies msg) :
    ∃ normal alt,
      (∀ m ∈ [msg, normal, alt], ∀ handed targets, targets ≠ [] →
        fault.onSend altDigest handed m .multicast targets =
          some (handed ++ fault.sends normal alt targets, normal, true)) ∧
      (IsPhase msg → PhaseVersions msg normal alt) ∧
      ∀ digest, IsCheckpoint digest msg → CheckpointVersions digest msg normal alt := by
  rcases h with h | ⟨digest, h⟩
  · obtain ⟨mt, normal, alt, hmt, hmember, hvariants, hversions⟩ := variants_isPhase altDigest h
    refine ⟨normal, alt, ?_, fun _ => hversions, fun digest hdigest => absurd h hdigest.not_isPhase⟩
    intro m hm handed targets hsome
    rcases List.mem_cons.mp hm with rfl | hm
    · exact onSend_of_variants altDigest htypes hmt hmember hvariants handed hsome
    · obtain ⟨h', hversions'⟩ := hversions.again h m hm
      obtain ⟨mt', normal', alt', hmt', hmember', hvariants', hsame⟩ := variants_isPhase altDigest h'
      have hnormal : normal' = normal := Option.some.inj (hsame.normal.symm.trans hversions'.normal)
      have halt : alt' = alt := Option.some.inj (hsame.alt.symm.trans hversions'.alt)
      rw [hnormal, halt] at hvariants'
      exact onSend_of_variants altDigest htypes hmt' hmember' hvariants' handed hsome
  · have hmt : "checkpoint" ∈ types := by decide
    obtain ⟨normal, alt, hvariants, hversions⟩ := variants_isCheckpoint altDigest h
    refine ⟨normal, alt, ?_, fun hphase => absurd hphase h.not_isPhase, fun digest' h' => ?_⟩
    · intro m hm handed targets hsome
      rcases List.mem_cons.mp hm with rfl | hm
      · exact onSend_of_variants altDigest htypes hmt h.type hvariants handed hsome
      · obtain ⟨h', hversions'⟩ := hversions.again h m hm
        obtain ⟨normal', alt', hvariants', hsame⟩ := variants_isCheckpoint altDigest h'
        have hnormal : normal' = normal := Option.some.inj (hsame.normal.symm.trans hversions'.normal)
        have halt : alt' = alt := Option.some.inj (hsame.alt.symm.trans hversions'.alt)
        rw [hnormal, halt] at hvariants'
        exact onSend_of_variants altDigest htypes hmt h'.type hvariants' handed hsome
    · have hdigest : digest = digest' := by
        rcases h.digest with hs | hs
        · rw [← h.unflipped hs, ← h'.unflipped hs]
        · rw [← h.unflipped hs, ← h'.unflipped hs]
      rw [← hdigest]
      exact hversions

theorem PhaseVersions.ne {normal alt : Json} (h : PhaseVersions msg normal alt) : normal ≠ alt := by
  intro hsame
  have hnormal := Json.get?_assign h.normal
  have halt := Json.get?_assign h.alt
  rw [hsame, halt] at hnormal
  cases hnormal

theorem CheckpointVersions.ne {digest : String} {normal alt : Json}
    (h : CheckpointVersions digest msg normal alt) : normal ≠ alt := by
  intro hsame
  have hnormal := Json.get?_assign h.normal
  have halt := Json.get?_assign h.alt
  rw [hsame, halt, Option.some.injEq, Json.str.injEq] at hnormal
  have hlength := congrArg String.length hnormal
  rw [String.length_append] at hlength
  exact absurd hlength (by simp)

/-- **Equivocation partitions its audience.** A multicast of a pre-prepare, prepare, commit or checkpoint
message to targets within two disjoint groups is taken over: each target is handed one message, the
normal version in the first group and the flipped one in the second. The versions differ from each other,
and from the original at most in the flag of the request or in the flip at the end of the digest; sending
either of them again makes the same two versions. -/
theorem multicast_partitions {A B : Finset InterfaceId} (hdisjoint : Disjoint A B) (h : Applies msg)
    {targets : Finset InterfaceId} (hsome : targets.Nonempty) (hcover : targets ⊆ A ∪ B) :
    ∃ normal alt sends,
      (∀ handed, EquivocateFault.onSend altDigest ⟨A, B, types⟩ handed msg .multicast
        (targets.sort (· ≤ ·)) = some (handed ++ sends, normal, true)) ∧
      (∀ d id handed, (ByzantinePeer.multicast d
        (.attach [EquivocateFault.asFault altDigest ⟨A, B, types⟩ id]) handed msg
        (targets.sort (· ≤ ·))).1 = handed ++ sends) ∧
      (∀ id, sends.filter (fun x => x.1 = id) =
        if id ∈ targets then [(id, if id ∈ A then normal else alt)] else []) ∧
      normal ≠ alt ∧
      (IsPhase msg → Json.SameBut flipPath msg normal ∧ Json.SameBut flipPath msg alt) ∧
      (∀ digest, IsCheckpoint digest msg →
        Json.SameBut ["digest"] msg normal ∧ Json.SameBut ["digest"] msg alt ∧
        normal.member "digest" = some (.str digest) ∧
        alt.member "digest" = some (.str (digest ++ "#flip"))) ∧
      ∀ m ∈ [normal, alt], ∀ handed targets', targets' ≠ [] →
        EquivocateFault.onSend altDigest ⟨A, B, types⟩ handed m .multicast targets' =
          some (handed ++ EquivocateFault.sends ⟨A, B, types⟩ normal alt targets', normal, true) := by
  obtain ⟨normal, alt, hsends, hphase, hcheckpoint⟩ :=
    @exists_versions altDigest ⟨A, B, types⟩ msg rfl h
  have htargets : targets.sort (· ≤ ·) ≠ [] := by
    obtain ⟨id, hid⟩ := hsome
    exact List.ne_nil_of_mem ((Finset.mem_sort _).mpr hid)
  have honSend := fun handed => hsends msg List.mem_cons_self handed _ htargets
  refine ⟨normal, alt, EquivocateFault.sends ⟨A, B, types⟩ normal alt (targets.sort (· ≤ ·)), honSend, ?_,
    sends_partition hdisjoint hcover normal alt, ?_, ?_, ?_,
    fun m hm => hsends m (List.mem_cons_of_mem _ hm)⟩
  · intro d id handed
    have hconsulted : (FaultManager.attach [EquivocateFault.asFault altDigest ⟨A, B, types⟩ id]).sendFaults
        .multicast = [EquivocateFault.asFault altDigest ⟨A, B, types⟩ id] := rfl
    unfold ByzantinePeer.multicast FaultManager.applySend
    rw [hconsulted, FaultManager.consult]
    unfold EquivocateFault.asFault
    dsimp only
    rw [honSend, Option.getD_some]
    rfl
  · rcases h with h | ⟨digest, h⟩
    · exact (hphase h).ne
    · exact (hcheckpoint digest h).ne
  · intro h
    exact ⟨.of_assign (hphase h).normal, .of_assign (hphase h).alt⟩
  · intro digest h
    have hnormal := Json.get?_assign (hcheckpoint digest h).normal
    have halt := Json.get?_assign (hcheckpoint digest h).alt
    rw [Json.get?_singleton] at hnormal halt
    exact ⟨.of_assign (hcheckpoint digest h).normal, .of_assign (hcheckpoint digest h).alt, hnormal, halt⟩

/-- The second half of a committee of four prepares a flipped request. -/
theorem multicast_partitions_ofFour :
    let pair := initQuorums [0, 1, 2, 3]
    let prepare : PhaseMessage := ⟨.prepare, 0, 0, ⟨0, 0, 0, false⟩, 0, 3⟩
    ∃ normal alt sends,
      (∀ handed, EquivocateFault.onSend (fun _ => "") ⟨pair.1, pair.2, types⟩ handed (prepare.toJson 0)
        .multicast (Finset.sort {0, 1, 2, 3} (· ≤ ·)) = some (handed ++ sends, normal, true)) ∧
      (∀ id : InterfaceId, sends.filter (fun x => x.1 = id) =
        if id ∈ ({0, 1, 2, 3} : Finset InterfaceId) then [(id, if id ∈ pair.1 then normal else alt)] else []) ∧
      normal ≠ alt := by
  intro pair prepare
  have hnodup : ([0, 1, 2, 3] : List InterfaceId).Nodup := by decide
  have htargets : ({0, 1, 2, 3} : Finset InterfaceId).Nonempty := ⟨0, by decide⟩
  obtain ⟨hdisjoint, hunion⟩ := initQuorums_spec hnodup
  have hcover : ({0, 1, 2, 3} : Finset InterfaceId) ⊆ pair.1 ∪ pair.2 := by
    rw [hunion]
    decide
  obtain ⟨normal, alt, sends, honSend, -, hsends, hne, -⟩ :=
    multicast_partitions (fun _ => "") hdisjoint (.inl (isPhase_toJson 0 prepare)) htargets hcover
  exact ⟨normal, alt, sends, honSend, hsends, hne⟩

end Partition

end Wire

end Quantas.Pbft
