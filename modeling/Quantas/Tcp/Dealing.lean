import Quantas.Lib.Allocation
import Quantas.Tcp.Coordinator

/-!
# What the dealing loop deals out

The loop of `distributeAssignmentsIfReady` serves the requests in registration order, so a process that
it reaches gets its `share`. It stops at the process that gets the last id, and the processes behind
that one keep the peers they had. `Dealt` is the loop's invariant over the processes served so far;
`dealing_spec` reads the final tables off it.
-/

namespace Quantas.Tcp.Coordinator
open Lib.Allocation

def demand (processes : ProcessKey → Option ProcessRecord) (key : ProcessKey) : Nat :=
  ((processes key).map fun record => record.requestedPeers.toNat).getD 0

theorem demand_eq {processes : ProcessKey → Option ProcessRecord} {key : ProcessKey} {record : ProcessRecord}
    (h : processes key = some record) : demand processes key = record.requestedPeers.toNat := by
  simp [demand, h]

/-- The ids that fall to a process when the requests are served in the order given. -/
def sharedIds (processes : ProcessKey → Option ProcessRecord) (order : List ProcessKey) (total : Nat)
    (key : ProcessKey) : List InterfaceId :=
  (share (demand processes) total order key).map Int.ofNat

theorem mem_sharedIds {processes : ProcessKey → Option ProcessRecord} {order : List ProcessKey} {total : Nat}
    {key : ProcessKey} {x : Int} :
    x ∈ sharedIds processes order total key ↔ 0 ≤ x ∧ x.toNat ∈ share (demand processes) total order key := by
  rw [sharedIds, List.mem_map]
  constructor
  · rintro ⟨a, ha, rfl⟩
    exact ⟨Int.natCast_nonneg a, ha⟩
  · rintro ⟨hx, hmem⟩
    exact ⟨x.toNat, hmem, Int.toNat_of_nonneg hx⟩

/-! ## The endpoints -/

theorem foldl_emplace {old new : List PeerEndpoint}
    (hfresh : ∀ e ∈ old, ∀ e' ∈ new, e.id ≠ e'.id) (hnodup : (new.map PeerEndpoint.id).Nodup) :
    new.foldl emplace old = old ++ new := by
  induction new generalizing old with
  | nil => simp
  | cons e new ih =>
    rw [List.map_cons, List.nodup_cons] at hnodup
    have hnew : emplace old e = old ++ [e] := by
      rw [emplace, if_neg]
      rintro ⟨e', he', hid⟩
      exact hfresh e' he' e List.mem_cons_self hid
    rw [List.foldl_cons, hnew, ih _ hnodup.2, List.append_assoc, List.singleton_append]
    intro e' he' e'' he'' hid
    rcases List.mem_append.mp he' with he' | he'
    · exact hfresh e' he' e'' (List.mem_cons_of_mem _ he'') hid
    · obtain rfl := List.mem_singleton.mp he'
      exact hnodup.1 (List.mem_map.mpr ⟨e'', he'', hid.symm⟩)

/-! ## The loop -/

section loop
variable {processes : ProcessKey → Option ProcessRecord} {order : List ProcessKey} {total : Nat}

theorem notMem_of_append {served rest : List ProcessKey} {key : ProcessKey} (horder : order = served ++ key :: rest)
    (hnodup : order.Nodup) : key ∉ served := by
  rw [horder] at hnodup
  intro hmem
  exact (List.nodup_append.mp hnodup).2.2 key hmem key List.mem_cons_self rfl

/-- What the loop has done when it has served the processes of `served`. -/
structure Dealt (processes : ProcessKey → Option ProcessRecord) (order : List ProcessKey) (total : Nat)
    (served : List ProcessKey) (d : Dealing) : Prop where
  nextId : d.nextId = (min total (served.map (demand processes)).sum : Nat)
  dealt : ∀ key ∈ served, ∀ record, processes key = some record →
    d.snapshot key = some { record with assignedPeers := sharedIds processes order total key }
  kept : ∀ key, key ∉ served → d.snapshot key = processes key
  endpoints : ∀ e, e ∈ d.endpoints ↔ ∃ key ∈ served, ∃ record, processes key = some record ∧
    e.id ∈ sharedIds processes order total key ∧ e.ip = record.ip ∧ e.port = record.port
  ranges : ∀ x ip port, (∃ range ∈ d.ranges, range.firstId ≤ x ∧ x ≤ range.lastId ∧ range.ip = ip ∧
      range.port = port) ↔
    ∃ key ∈ served, ∃ record, processes key = some record ∧ x ∈ sharedIds processes order total key ∧
      ip = record.ip ∧ port = record.port

theorem dealt_nil : Dealt processes order total [] { snapshot := processes } where
  nextId := by simp
  dealt := by simp
  kept := by simp
  endpoints := by simp
  ranges := by simp

theorem assigned_eq_sharedIds {nextId requested : Int} {key : ProcessKey}
    (hnext : nextId = (min total (before (demand processes) order key) : Nat))
    (hdemand : demand processes key = requested.toNat) :
    (List.range (min requested (total - nextId)).toNat).map (fun i : Nat => nextId + i) =
      sharedIds processes order total key := by
  rw [sharedIds, share, List.range'_eq_map_range, List.map_map, hdemand]
  have hlength : (min requested (total - nextId)).toNat =
      min requested.toNat (total - before (demand processes) order key) := by omega
  rw [hlength]
  apply List.map_congr_left
  intro i hi
  have := List.mem_range.mp hi
  show nextId + (i : Int) = ((before (demand processes) order key + i : Nat) : Int)
  omega

theorem sharedIds_disjoint {key key' : ProcessKey} (hkey : key ∈ order) (hkey' : key' ∈ order) (hne : key ≠ key')
    {x : Int} (hx : x ∈ sharedIds processes order total key) : x ∉ sharedIds processes order total key' := by
  intro hx'
  rw [mem_sharedIds] at hx hx'
  exact share_disjoint hkey hkey' hne hx.2 hx'.2

theorem Dealt.deal {served rest : List ProcessKey} {d : Dealing} {key : ProcessKey} {record : ProcessRecord}
    (h : Dealt processes order total served d) (horder : order = served ++ key :: rest)
    (hnodup : order.Nodup) (hrecord : processes key = some record) :
    Dealt processes order total (served ++ [key]) (deal total d key record) := by
  have hdemand := demand_eq hrecord
  have hnotin := notMem_of_append horder hnodup
  have hbefore : before (demand processes) order key = (served.map (demand processes)).sum := by
    rw [horder, before_append _ hnotin, before_cons_self, Nat.add_zero]
  have hnext : d.nextId = (min total (before (demand processes) order key) : Nat) := hbefore ▸ h.nextId
  have hassigned := assigned_eq_sharedIds hnext hdemand
  have hmem : ∀ x : Int, x ∈ sharedIds processes order total key ↔
      d.nextId ≤ x ∧ x < d.nextId + (min record.requestedPeers (total - d.nextId)).toNat := by
    intro x
    rw [mem_sharedIds, mem_share]
    omega
  unfold Coordinator.deal
  dsimp only
  rw [hassigned]
  refine ⟨?_, fun key' hkey' record' hrecord' => ?_, fun key' hkey' => ?_, fun e => ?_, fun x ip port => ?_⟩
  · show d.nextId + _ = _
    rw [List.map_append, List.sum_append, List.map_singleton, List.sum_singleton]
    omega
  · show Function.update d.snapshot key _ key' = _
    rcases List.mem_append.mp hkey' with hkey' | hkey'
    · rw [Function.update_of_ne (ne_of_mem_of_not_mem hkey' hnotin)]
      exact h.dealt key' hkey' record' hrecord'
    · obtain rfl := List.mem_singleton.mp hkey'
      rw [Function.update_self, ← Option.some.inj (hrecord.symm.trans hrecord')]
  · show Function.update d.snapshot key _ key' = _
    rw [List.mem_append, not_or, List.mem_singleton] at hkey'
    rw [Function.update_of_ne hkey'.2]
    exact h.kept key' hkey'.1
  · show e ∈ List.foldl emplace d.endpoints _ ↔ _
    rw [foldl_emplace, List.mem_append, h.endpoints, List.mem_map]
    · constructor
      · rintro (⟨key', hkey', hrest⟩ | ⟨id, hid, rfl⟩)
        · exact ⟨key', List.mem_append_left _ hkey', hrest⟩
        · exact ⟨key, by simp, record, hrecord, hid, rfl, rfl⟩
      · rintro ⟨key', hkey', record', hrecord', hid, hip, hport⟩
        rcases List.mem_append.mp hkey' with hkey' | hkey'
        · exact .inl ⟨key', hkey', record', hrecord', hid, hip, hport⟩
        · obtain rfl := List.mem_singleton.mp hkey'
          obtain rfl := Option.some.inj (hrecord.symm.trans hrecord')
          exact .inr ⟨e.id, hid, by rw [← hip, ← hport]⟩
    · -- the ids dealt before belong to other processes
      intro e he e' he' hid
      obtain ⟨key', hkey', -, -, he, -⟩ := (h.endpoints e).mp he
      obtain ⟨id, hmem', rfl⟩ := List.mem_map.mp he'
      have hne : key' ≠ key := ne_of_mem_of_not_mem hkey' hnotin
      have hin : key' ∈ order := by simp [horder, hkey']
      exact sharedIds_disjoint hin (by simp [horder]) hne he (hid ▸ hmem')
    · rw [List.map_map, Function.comp_def, List.map_id']
      exact (nodup_share key).map Int.ofNat_injective
  · show (∃ range ∈ (if 0 < min record.requestedPeers (total - d.nextId) then d.ranges ++ [_] else d.ranges), _) ↔ _
    have hsplit : (∃ key' ∈ served ++ [key], ∃ record', processes key' = some record' ∧
        x ∈ sharedIds processes order total key' ∧ ip = record'.ip ∧ port = record'.port) ↔
        (∃ range ∈ d.ranges, range.firstId ≤ x ∧ x ≤ range.lastId ∧ range.ip = ip ∧ range.port = port) ∨
          (x ∈ sharedIds processes order total key ∧ ip = record.ip ∧ port = record.port) := by
      simp only [h.ranges, List.mem_append, List.mem_singleton, or_and_right, exists_or, exists_eq_left, hrecord,
        Option.some.injEq, exists_eq_left']
    rw [hsplit, hmem]
    split_ifs with havailable
    · simp only [List.mem_append, List.mem_singleton, or_and_right, exists_or, exists_eq_left]
      refine or_congr_right ⟨?_, ?_⟩
      · rintro ⟨hlo, hhi, rfl, rfl⟩
        exact ⟨⟨hlo, Int.lt_of_le_sub_one hhi⟩, rfl, rfl⟩
      · rintro ⟨⟨hlo, hhi⟩, rfl, rfl⟩
        exact ⟨hlo, Int.le_sub_one_of_lt hhi, rfl, rfl⟩
    · rw [or_iff_left]
      rintro ⟨hx, -⟩
      omega

theorem Dealt.dealAll {served rest : List ProcessKey} {d : Dealing}
    (h : Dealt processes order total served d) (horder : order = served ++ rest) (hnodup : order.Nodup)
    (hlisted : ∀ key ∈ order, (processes key).isSome = true)
    (hroom : ∀ key ∈ served, before (demand processes) order key < total)
    (hleft : (served.map (demand processes)).sum < total) :
    ∃ served', Dealt processes order total served' (dealAll total rest d) ∧
      ∀ key, key ∈ served' ↔ key ∈ order ∧ before (demand processes) order key < total := by
  induction rest generalizing served d with
  | nil =>
    rw [List.append_nil] at horder
    subst horder
    exact ⟨order, h, fun key => ⟨fun hkey => ⟨hkey, hroom key hkey⟩, And.left⟩⟩
  | cons key rest ih =>
    have hnotin := notMem_of_append horder hnodup
    obtain ⟨record, hrecord⟩ := Option.isSome_iff_exists.mp (hlisted key (by simp [horder]))
    have hstep := h.deal horder hnodup hrecord
    have horder' : order = (served ++ [key]) ++ rest := by simp [horder]
    rw [Coordinator.dealAll, h.kept key hnotin, hrecord]
    dsimp only
    have hroom' : ∀ key' ∈ served ++ [key], before (demand processes) order key' < total := by
      intro key' hkey'
      rcases List.mem_append.mp hkey' with hkey' | hkey'
      · exact hroom key' hkey'
      · obtain rfl := List.mem_singleton.mp hkey'
        rwa [horder, before_append _ hnotin, before_cons_self, Nat.add_zero]
    have hnext := hstep.nextId
    split_ifs with hdone
    · refine ⟨served ++ [key], hstep, fun key' => ⟨fun hkey' => ?_, fun hkey' => ?_⟩⟩
      · exact ⟨by rw [horder']; exact List.mem_append_left _ hkey', hroom' key' hkey'⟩
      · by_contra hbehind
        have hlt := hkey'.2
        rw [horder', before_append _ hbehind] at hlt
        omega
    · exact ih hstep horder' hroom' (by omega)

end loop

/-! ## The coordinator's loop -/

variable (c : Coordinator)

/-- Ids remain when the loop comes to the process: the requests registered before it ask for fewer. -/
def Reaches (key : ProcessKey) : Prop :=
  before (demand c.processes) c.registrationOrder key < c.totalPeers.toNat

instance (key : ProcessKey) : Decidable (c.Reaches key) := inferInstanceAs (Decidable (_ < _))

def shareOf (key : ProcessKey) : List InterfaceId :=
  sharedIds c.processes c.registrationOrder c.totalPeers.toNat key

/-- The peers of a registered process after the loop: those that it had when the loop does not reach it. -/
def peersAfter (key : ProcessKey) (record : ProcessRecord) : List InterfaceId :=
  if c.Reaches key then c.shareOf key else record.assignedPeers

variable {c}

theorem dealing_spec (htotal : 0 ≤ c.totalPeers) (hnodup : c.registrationOrder.Nodup)
    (hlisted : ∀ key ∈ c.registrationOrder, (c.processes key).isSome = true) :
    ∃ served, Dealt c.processes c.registrationOrder c.totalPeers.toNat served c.dealing ∧
      (∀ key ∈ served, key ∈ c.registrationOrder ∧ (c.Reaches key ∨ c.totalPeers = 0)) ∧
      ∀ key ∈ c.registrationOrder, c.Reaches key → key ∈ served := by
  unfold dealing Reaches
  obtain ⟨total, htotal'⟩ := Int.eq_ofNat_of_zero_le htotal
  rw [htotal', Int.toNat_natCast]
  rcases Nat.eq_zero_or_pos total with rfl | hpos
  · -- the first process ends the loop
    cases horder : c.registrationOrder with
    | nil => exact ⟨[], dealt_nil, by simp, by simp⟩
    | cons key rest =>
      rw [horder] at hnodup hlisted
      obtain ⟨record, hrecord⟩ := Option.isSome_iff_exists.mp (hlisted key List.mem_cons_self)
      have hnil : Dealt c.processes (key :: rest) 0 [] { snapshot := c.processes } := dealt_nil
      have hstep := hnil.deal rfl hnodup hrecord
      refine ⟨[key], ?_, by simp, by simp⟩
      simp only [dealAll, hrecord]
      rw [if_pos]
      · exact hstep
      · rw [hstep.nextId]
        simp
  · have hnil : Dealt c.processes c.registrationOrder total [] { snapshot := c.processes } := dealt_nil
    obtain ⟨served, hdealt, hserved⟩ := hnil.dealAll rfl hnodup hlisted (by simp) (by simpa using hpos)
    refine ⟨served, hdealt, fun key hkey => ?_, fun key hkey hlt => (hserved key).mpr ⟨hkey, hlt⟩⟩
    obtain ⟨hin, hlt⟩ := (hserved key).mp hkey
    exact ⟨hin, .inl hlt⟩

end Quantas.Tcp.Coordinator
