import Quantas.Lib.Framing

/-!
# Framed messages on a connection

A message goes over a connection as its length in network byte order and its payload. `send` takes as many bytes as it
likes, or fails; the bytes come out of `recv` in pieces of any size, until the connection is cut. What the reader makes
of them depends only on the bytes before the cut: `framing_round_trip` says that these are the payloads that were
written completely.
-/

namespace Quantas.Tcp

/-! ## Sending -/

/-- The end of a connection that writes. The `k`-th call of `send` is answered with `answers k`, but with no more bytes
than it was given; `written` has the bytes that were taken. -/
structure SendSocket where
  answers : Nat → Int
  calls : Nat := 0
  written : List UInt8 := []

def send (s : SendSocket) (buffer : List UInt8) : Int × SendSocket :=
  let sent := min (s.answers s.calls) buffer.length
  (sent, { s with calls := s.calls + 1, written := s.written ++ buffer.take sent.toNat })

/-- The loop of `sendAll`; each round of it takes a byte at least. -/
def sendLoop (buffer : List UInt8) : Nat → Nat → SendSocket → Bool × SendSocket
  | 0, totalSent, s => (decide (buffer.length ≤ totalSent), s)
  | fuel + 1, totalSent, s =>
    if totalSent < buffer.length then
      let result := send s (buffer.drop totalSent)
      if result.1 ≤ 0 then (false, result.2) else sendLoop buffer fuel (totalSent + result.1.toNat) result.2
    else (true, s)

def sendAll (s : SendSocket) (buffer : List UInt8) : Bool × SendSocket := sendLoop buffer buffer.length 0 s

/-- `htonl(static_cast<uint32_t>(length))`, as the bytes in memory. -/
def htonl (length : Nat) : List UInt8 :=
  [.ofNat (length / 2 ^ 24), .ofNat (length / 2 ^ 16), .ofNat (length / 2 ^ 8), .ofNat length]

/-- What `sendJson` does on a connection. -/
def sendFramed (s : SendSocket) (payload : List UInt8) : Bool × SendSocket :=
  let result := sendAll s (htonl payload.length)
  if result.1 then sendAll result.2 payload else result

/-- Message after message on one connection: a message that cannot be sent closes it. With the messages that were
sent. -/
def sendMessages : SendSocket → List (List UInt8) → List (List UInt8) × SendSocket
  | s, [] => ([], s)
  | s, payload :: payloads =>
    let result := sendFramed s payload
    if result.1 then
      let rest := sendMessages result.2 payloads
      (payload :: rest.1, rest.2)
    else ([], result.2)

/-! ## Receiving -/

/-- The end of a connection that reads: the bytes that come before the cut, how many of them the `k`-th call of `recv`
gets at most, and what it returns at the cut, 0 or an error. -/
structure RecvSocket where
  incoming : List UInt8
  sizes : Nat → Nat
  calls : Nat := 0
  atCut : Int := 0
  atCut_le : atCut ≤ 0

def recv (s : RecvSocket) (length : Nat) : Int × List UInt8 × RecvSocket :=
  if s.incoming = [] then (s.atCut, [], { s with calls := s.calls + 1 })
  else
    let received := min (s.sizes s.calls + 1) (min length s.incoming.length)
    (received, s.incoming.take received,
      { s with incoming := s.incoming.drop received, calls := s.calls + 1 })

/-- The loop of `recvAll`, with what it has read. -/
def recvLoop (length : Nat) : Nat → List UInt8 → RecvSocket → Bool × List UInt8 × RecvSocket
  | 0, bytes, s => (decide (length ≤ bytes.length), bytes, s)
  | fuel + 1, bytes, s =>
    if bytes.length < length then
      let result := recv s (length - bytes.length)
      if result.1 ≤ 0 then (false, bytes, result.2.2)
      else recvLoop length fuel (bytes ++ result.2.1) result.2.2
    else (true, bytes, s)

def recvAll (s : RecvSocket) (length : Nat) : Bool × List UInt8 × RecvSocket := recvLoop length length [] s

def ntohl (bytes : List UInt8) : Nat := bytes.foldl (fun length byte => length * 2 ^ 8 + byte.toNat) 0

def readFramedMessage (s : RecvSocket) : Option (List UInt8) × RecvSocket :=
  let header := recvAll s 4
  if header.1 then
    let payloadLength := ntohl header.2.1
    if 0 < payloadLength then
      let payload := recvAll header.2.2 payloadLength
      if payload.1 then (some payload.2.1, payload.2.2) else (none, payload.2.2)
    else (some [], header.2.2)
  else (none, header.2.2)

/-- The `k`-th of the calls of `readFramedMessage` on a connection, counted from 0. -/
def reads (s : RecvSocket) : Nat → Option (List UInt8) × RecvSocket
  | 0 => readFramedMessage s
  | k + 1 => readFramedMessage (reads s k).2

/-- `connectionLoop`: the payloads that it parses. `none` when the fuel is not enough. -/
def connectionLoop : Nat → RecvSocket → Option (List (List UInt8))
  | 0, _ => none
  | fuel + 1, s =>
    match readFramedMessage s with
    | (none, _) => some []
    | (some payload, s') => (connectionLoop fuel s').map fun rest => if payload = [] then rest else payload :: rest

/-! ## Lengths -/

theorem ntohl_htonl {length : Nat} (h : length < 2 ^ 32) : ntohl (htonl length) = length := by
  unfold ntohl htonl
  simp only [List.foldl_cons, List.foldl_nil, UInt8.toNat_ofNat']
  omega

/-- The headers of `sendJson` and `readFramedMessage`. -/
def lengthHeader : Lib.Header UInt8 where
  width := 4
  bound := 2 ^ 32
  encode := htonl
  decode := ntohl
  length_encode _ := rfl
  decode_encode _ h := ntohl_htonl h

/-! ## What is written -/

theorem sendLoop_spec (buffer : List UInt8) {fuel totalSent : Nat} (s : SendSocket)
    (hfuel : buffer.length ≤ totalSent + fuel) (hle : totalSent ≤ buffer.length) :
    ∃ k, totalSent + k ≤ buffer.length ∧
      (sendLoop buffer fuel totalSent s).2.written = s.written ++ (buffer.drop totalSent).take k ∧
      ((sendLoop buffer fuel totalSent s).1 = true ↔ totalSent + k = buffer.length) := by
  induction fuel generalizing totalSent s with
  | zero =>
    refine ⟨0, hle, by simp [sendLoop], ?_⟩
    simp only [sendLoop, decide_eq_true_eq]
    omega
  | succ fuel ih =>
    rw [sendLoop]
    by_cases hmore : totalSent < buffer.length
    · rw [if_pos hmore]
      dsimp only [send]
      have hlength : (buffer.drop totalSent).length = buffer.length - totalSent := List.length_drop
      by_cases hfail : min (s.answers s.calls) ((buffer.drop totalSent).length : Int) ≤ 0
      · rw [if_pos hfail, show (min (s.answers s.calls) ((buffer.drop totalSent).length : Int)).toNat = 0 by omega]
        refine ⟨0, hle, rfl, ?_⟩
        simp only [Bool.false_eq_true, false_iff]
        omega
      · rw [if_neg hfail]
        generalize hsent : (min (s.answers s.calls) ((buffer.drop totalSent).length : Int)).toNat = sent
        obtain ⟨k, hk, hwritten, hok⟩ := ih { s with
            calls := s.calls + 1, written := s.written ++ (buffer.drop totalSent).take sent }
          (show buffer.length ≤ totalSent + sent + fuel by omega) (by omega)
        refine ⟨sent + k, by omega, ?_, by rw [hok]; omega⟩
        rw [hwritten, List.append_assoc, List.take_add, List.drop_drop]
    · rw [if_neg hmore]
      refine ⟨0, hle, by simp, ?_⟩
      simp only [true_iff]
      omega

theorem sendAll_spec (s : SendSocket) (buffer : List UInt8) :
    ∃ k ≤ buffer.length, (sendAll s buffer).2.written = s.written ++ buffer.take k ∧
      ((sendAll s buffer).1 = true ↔ k = buffer.length) := by
  have hfuel : buffer.length ≤ 0 + buffer.length := by omega
  obtain ⟨k, hk, hwritten, hok⟩ := sendLoop_spec buffer s hfuel (Nat.zero_le _)
  rw [Nat.zero_add] at hk hok
  rw [List.drop_zero] at hwritten
  exact ⟨k, hk, hwritten, hok⟩

theorem sendFramed_spec (s : SendSocket) (payload : List UInt8) :
    ∃ k ≤ (lengthHeader.frame payload).length,
      (sendFramed s payload).2.written = s.written ++ (lengthHeader.frame payload).take k ∧
      ((sendFramed s payload).1 = true ↔ k = (lengthHeader.frame payload).length) := by
  have hlength : (lengthHeader.frame payload).length = 4 + payload.length := Lib.Header.length_frame
  have hheader : (htonl payload.length).length = 4 := rfl
  obtain ⟨k, hk, hwritten, hok⟩ := sendAll_spec s (htonl payload.length)
  unfold sendFramed
  dsimp only
  by_cases hsent : (sendAll s (htonl payload.length)).1 = true
  · rw [if_pos hsent]
    obtain ⟨k', hk', hwritten', hok'⟩ := sendAll_spec (sendAll s (htonl payload.length)).2 payload
    refine ⟨4 + k', by omega, ?_, by rw [hok']; omega⟩
    rw [hwritten', hwritten, hok.mp hsent, List.take_length]
    show _ = s.written ++ (htonl payload.length ++ payload).take ((htonl payload.length).length + k')
    rw [List.take_length_add_append, List.append_assoc]
  · rw [if_neg hsent]
    refine ⟨k, by omega, ?_, ?_⟩
    · rw [hwritten]
      show _ = s.written ++ (htonl payload.length ++ payload).take k
      rw [List.take_append_of_le_length hk]
    · refine ⟨fun h => absurd h hsent, fun h => absurd (hok.mpr ?_) hsent⟩
      omega

/-- Of the stream of all messages a part from its front is written, and the messages that were sent are the ones that
are complete in it. -/
theorem sendMessages_spec (s : SendSocket) (payloads : List (List UInt8)) :
    ∃ k ≤ (lengthHeader.stream payloads).length,
      (sendMessages s payloads).2.written = s.written ++ (lengthHeader.stream payloads).take k ∧
      (sendMessages s payloads).1 = lengthHeader.complete payloads k := by
  induction payloads generalizing s with
  | nil => exact ⟨0, le_refl _, (List.append_nil _).symm, rfl⟩
  | cons payload payloads ih =>
    obtain ⟨k, hk, hwritten, hok⟩ := sendFramed_spec s payload
    unfold sendMessages
    dsimp only
    by_cases hsent : (sendFramed s payload).1 = true
    · rw [if_pos hsent]
      obtain ⟨k', hk', hwritten', heq⟩ := ih (sendFramed s payload).2
      have hwhole := hok.mp hsent
      refine ⟨k + k', ?_, ?_, ?_⟩
      · rw [Lib.Header.stream_cons, List.length_append]
        omega
      · rw [Lib.Header.take_stream_cons_of_le (by omega), hwhole, Nat.add_sub_cancel_left, hwritten', hwritten, hwhole,
          List.take_length, List.append_assoc]
      · unfold Lib.Header.complete
        rw [if_pos (by omega), hwhole, Nat.add_sub_cancel_left, heq]
    · rw [if_neg hsent]
      have hpart : k < (lengthHeader.frame payload).length := lt_of_le_of_ne hk fun h => hsent (hok.mpr h)
      refine ⟨k, ?_, ?_, ?_⟩
      · rw [Lib.Header.stream_cons, List.length_append]
        omega
      · rw [Lib.Header.take_stream_cons_of_lt hpart, hwritten]
      · unfold Lib.Header.complete
        rw [if_neg (by omega)]

/-! ## What is read -/

theorem recvLoop_spec {length fuel : Nat} {bytes : List UInt8} (s : RecvSocket)
    (hfuel : length ≤ bytes.length + fuel) (hle : bytes.length ≤ length) :
    ((recvLoop length fuel bytes s).1 = true ↔ length - bytes.length ≤ s.incoming.length) ∧
      ((recvLoop length fuel bytes s).1 = true →
        (recvLoop length fuel bytes s).2.1 = bytes ++ s.incoming.take (length - bytes.length)) ∧
      (recvLoop length fuel bytes s).2.2.incoming = s.incoming.drop (length - bytes.length) := by
  induction fuel generalizing bytes s with
  | zero =>
    have hzero : length - bytes.length = 0 := by omega
    rw [hzero]
    refine ⟨?_, fun _ => by simp [recvLoop], rfl⟩
    simp only [recvLoop, decide_eq_true_eq]
    omega
  | succ fuel ih =>
    rw [recvLoop]
    by_cases hmore : bytes.length < length
    · rw [if_pos hmore]
      dsimp only [recv]
      by_cases hcut : s.incoming = []
      · rw [if_pos hcut, if_pos s.atCut_le, hcut]
        refine ⟨?_, fun h => absurd h Bool.false_ne_true, List.drop_nil.symm⟩
        simp only [Bool.false_eq_true, List.length_nil, false_iff]
        omega
      · rw [if_neg hcut]
        have hpos := List.length_pos_of_ne_nil hcut
        generalize hreceived : min (s.sizes s.calls + 1) (min (length - bytes.length) s.incoming.length) = received
        dsimp only
        rw [if_neg (by omega)]
        have hlength : (bytes ++ s.incoming.take received).length = bytes.length + received := by
          rw [List.length_append, List.length_take]
          omega
        have hrest : length - bytes.length = received + (length - (bytes ++ s.incoming.take received).length) := by
          omega
        have hfuel' : length ≤ (bytes ++ s.incoming.take received).length + fuel := by omega
        obtain ⟨hok, hread, hleft⟩ :=
          ih { s with incoming := s.incoming.drop received, calls := s.calls + 1 } hfuel' (by omega)
        refine ⟨?_, ?_, ?_⟩
        · rw [hok, List.length_drop]
          omega
        · intro h
          rw [hread h, hrest, List.take_add, List.append_assoc]
        · rw [hleft, List.drop_drop, hrest]
    · rw [if_neg hmore]
      have hzero : length - bytes.length = 0 := by omega
      rw [hzero]
      exact ⟨by simp, fun _ => by simp, rfl⟩

theorem recvAll_spec (s : RecvSocket) (length : Nat) :
    ((recvAll s length).1 = true ↔ length ≤ s.incoming.length) ∧
      ((recvAll s length).1 = true → (recvAll s length).2.1 = s.incoming.take length) ∧
      (recvAll s length).2.2.incoming = s.incoming.drop length := by
  have hfuel : length ≤ ([] : List UInt8).length + length := by simp
  exact recvLoop_spec s hfuel (Nat.zero_le _)

theorem next?_eq (incoming : List UInt8) : lengthHeader.next? incoming =
    if incoming.length < 4 then none
    else if (incoming.drop 4).length < ntohl (incoming.take 4) then none
    else some ((incoming.drop 4).take (ntohl (incoming.take 4)), (incoming.drop 4).drop (ntohl (incoming.take 4))) :=
  rfl

/-- **The pieces do not matter.** `readFramedMessage` reads the frame at the front of what comes before the cut, and
uses up the rest when there is none. -/
theorem readFramedMessage_spec (s : RecvSocket) :
    (readFramedMessage s).1 = (lengthHeader.next? s.incoming).map Prod.fst ∧
      (readFramedMessage s).2.incoming = ((lengthHeader.next? s.incoming).map Prod.snd).getD [] := by
  obtain ⟨hok, hread, hleft⟩ := recvAll_spec s 4
  have hnext := next?_eq s.incoming
  unfold readFramedMessage
  dsimp only
  by_cases hheader : (recvAll s 4).1 = true
  · have hfour := hok.mp hheader
    rw [if_neg (by omega)] at hnext
    rw [if_pos hheader, hread hheader]
    generalize hpayload : ntohl (s.incoming.take 4) = payloadLength at hnext
    obtain ⟨hok', hread', hleft'⟩ := recvAll_spec (recvAll s 4).2.2 payloadLength
    rw [hleft] at hok' hread' hleft'
    by_cases hpos : 0 < payloadLength
    · rw [if_pos hpos]
      by_cases hbody : (recvAll (recvAll s 4).2.2 payloadLength).1 = true
      · rw [if_neg (not_lt.mpr (hok'.mp hbody))] at hnext
        rw [if_pos hbody, hnext]
        exact ⟨congrArg some (hread' hbody), hleft'⟩
      · have hlt := not_le.mp fun h => hbody (hok'.mpr h)
        rw [if_pos hlt] at hnext
        rw [if_neg hbody, hnext]
        exact ⟨rfl, hleft'.trans (List.drop_eq_nil_of_le (le_of_lt hlt))⟩
    · obtain rfl : payloadLength = 0 := by omega
      rw [if_neg (Nat.not_lt_zero _)] at hnext
      rw [if_neg hpos, hnext]
      exact ⟨rfl, hleft⟩
  · have hlt := not_le.mp fun h => hheader (hok.mpr h)
    rw [if_pos hlt] at hnext
    rw [if_neg hheader, hnext]
    exact ⟨rfl, hleft.trans (List.drop_eq_nil_of_le (le_of_lt hlt))⟩

/-! ## Message after message -/

theorem reads_succ (s : RecvSocket) (k : Nat) : reads s (k + 1) = reads (readFramedMessage s).2 k := by
  induction k with
  | zero => rfl
  | succ k ih =>
    rw [reads, ih]
    rfl

/-- What one call makes of a stream that is cut: it reads the first payload when that is complete, and otherwise uses
up what is there. -/
theorem readFramedMessage_stream {payloads : List (List UInt8)} {cut : Nat} {s : RecvSocket}
    (hshort : ∀ payload ∈ payloads, payload.length < 2 ^ 32)
    (hs : s.incoming = (lengthHeader.stream payloads).take cut) :
    (lengthHeader.complete payloads cut = [] ∧ (readFramedMessage s).1 = none ∧
      (readFramedMessage s).2.incoming = []) ∨
    ∃ payload rest, payloads = payload :: rest ∧ (lengthHeader.frame payload).length ≤ cut ∧
      lengthHeader.complete payloads cut =
        payload :: lengthHeader.complete rest (cut - (lengthHeader.frame payload).length) ∧
      (readFramedMessage s).1 = some payload ∧ (readFramedMessage s).2.incoming =
        (lengthHeader.stream rest).take (cut - (lengthHeader.frame payload).length) := by
  obtain ⟨hpayload, hrest⟩ := readFramedMessage_spec s
  cases payloads with
  | nil =>
    rw [hs, Lib.Header.stream_nil, List.take_nil] at hpayload hrest
    exact Or.inl ⟨rfl, hpayload, hrest⟩
  | cons payload rest =>
    have hlt : payload.length < lengthHeader.bound := hshort payload List.mem_cons_self
    by_cases hle : (lengthHeader.frame payload).length ≤ cut
    · rw [hs, Lib.Header.take_stream_cons_of_le hle, Lib.Header.next?_frame hlt] at hpayload hrest
      refine Or.inr ⟨payload, rest, rfl, hle, ?_, hpayload, hrest⟩
      rw [Lib.Header.complete, if_pos hle]
    · rw [hs, Lib.Header.take_stream_cons_of_lt (not_le.mp hle),
        Lib.Header.next?_take_frame hlt (not_le.mp hle)] at hpayload hrest
      refine Or.inl ⟨?_, hpayload, hrest⟩
      rw [Lib.Header.complete, if_neg hle]

theorem reads_eq_none {s : RecvSocket} (hs : s.incoming = []) (k : Nat) : (reads s k).1 = none := by
  have hempty : s.incoming = (lengthHeader.stream []).take 0 := hs
  induction k generalizing s with
  | zero =>
    rcases readFramedMessage_stream (by simp) hempty with ⟨-, hnone, -⟩ | ⟨payload, rest, heq, -⟩
    · exact hnone
    · cases heq
  | succ k ih =>
    rw [reads_succ]
    rcases readFramedMessage_stream (by simp) hempty with ⟨-, -, hrest⟩ | ⟨payload, rest, heq, -⟩
    · exact ih hrest hrest
    · cases heq

theorem reads_stream {payloads : List (List UInt8)} {cut : Nat} {s : RecvSocket}
    (hshort : ∀ payload ∈ payloads, payload.length < 2 ^ 32)
    (hs : s.incoming = (lengthHeader.stream payloads).take cut) (k : Nat) :
    (reads s k).1 = (lengthHeader.complete payloads cut)[k]? := by
  induction k generalizing payloads cut s with
  | zero =>
    rcases readFramedMessage_stream hshort hs with ⟨heq, hnone, -⟩ | ⟨payload, rest, rfl, hle, heq, hsome, -⟩
    · rw [heq]
      exact hnone
    · rw [heq]
      exact hsome
  | succ k ih =>
    rw [reads_succ]
    rcases readFramedMessage_stream hshort hs with ⟨heq, -, hrest⟩ | ⟨payload, rest, rfl, hle, heq, -, hrest⟩
    · rw [heq]
      exact reads_eq_none hrest k
    · rw [heq, List.getElem?_cons_succ]
      exact ih (fun p hp => hshort p (List.mem_cons_of_mem _ hp)) hrest

theorem connectionLoop_stream {payloads : List (List UInt8)} {cut fuel : Nat} {s : RecvSocket}
    (hshort : ∀ payload ∈ payloads, payload.length < 2 ^ 32)
    (hs : s.incoming = (lengthHeader.stream payloads).take cut)
    (hfuel : (lengthHeader.complete payloads cut).length < fuel) :
    connectionLoop fuel s = some ((lengthHeader.complete payloads cut).filter (· ≠ [])) := by
  induction fuel generalizing payloads cut s with
  | zero => omega
  | succ fuel ih =>
    rw [connectionLoop]
    rcases hresult : readFramedMessage s with ⟨read, s'⟩
    have hread := readFramedMessage_stream hshort hs
    rw [hresult] at hread
    rcases hread with ⟨heq, rfl, -⟩ | ⟨payload, rest, rfl, hle, heq, rfl, hrest⟩
    · rw [heq]
      rfl
    · rw [heq, List.length_cons] at hfuel
      have hloop := ih (fun p hp => hshort p (List.mem_cons_of_mem _ hp)) hrest (by omega)
      dsimp only
      rw [heq, hloop, Option.map_some]
      by_cases hempty : payload = []
      · rw [if_pos hempty, List.filter_cons_of_neg (by simpa using hempty)]
      · rw [if_neg hempty, List.filter_cons_of_pos (by simpa using hempty)]

/-- **Framing round trip.** Whatever messages shorter than 2^32 bytes are sent over a connection, however `send` takes
the bytes and fails, wherever the connection is cut and however `recv` deals out what comes before the cut: the calls
of `readFramedMessage` return one by one the payloads whose frames were written before the cut, from the first message
on, and after them nothing. Without a cut these are the messages that the sender takes for sent. The connection loop
ends and parses these payloads, but for empty ones. -/
theorem framing_round_trip (payloads : List (List UInt8)) (hshort : ∀ payload ∈ payloads, payload.length < 2 ^ 32)
    (answers : Nat → Int) (cut : Nat) (s : RecvSocket)
    (hs : s.incoming = (sendMessages { answers } payloads).2.written.take cut) :
    ∃ count ≤ payloads.length,
      (lengthHeader.stream (payloads.take count)).length ≤ s.incoming.length ∧
      (∀ h : count < payloads.length,
        s.incoming.length < (lengthHeader.stream (payloads.take count ++ [payloads[count]])).length) ∧
      (∀ k, (reads s k).1 = (payloads.take count)[k]?) ∧
      (∀ fuel, count < fuel → connectionLoop fuel s = some ((payloads.take count).filter (· ≠ []))) ∧
      ((sendMessages { answers } payloads).2.written.length ≤ cut →
        payloads.take count = (sendMessages { answers } payloads).1) := by
  obtain ⟨k, hk, hwritten, hsent⟩ := sendMessages_spec { answers } payloads
  rw [List.nil_append] at hwritten
  rw [hwritten, List.take_take] at hs
  have hlength : s.incoming.length = min cut k := by
    rw [hs, List.length_take]
    omega
  have hfront : lengthHeader.complete payloads (min cut k) <+: payloads := Lib.Header.complete_prefix
  have htake := (List.prefix_iff_eq_take.mp hfront).symm
  refine ⟨(lengthHeader.complete payloads (min cut k)).length, hfront.length_le, ?_, ?_, ?_, ?_, ?_⟩
  · rw [htake, hlength]
    exact Lib.Header.length_stream_complete
  · intro hlt
    rw [htake, hlength]
    have hsplit : lengthHeader.complete payloads (min cut k) ++
        payloads[(lengthHeader.complete payloads (min cut k)).length] ::
          payloads.drop ((lengthHeader.complete payloads (min cut k)).length + 1) = payloads := by
      rw [← List.drop_eq_getElem_cons hlt]
      conv_rhs => rw [← List.take_append_drop (lengthHeader.complete payloads (min cut k)).length payloads, htake]
    exact Lib.Header.lt_length_of_complete hsplit
  · intro i
    rw [htake]
    exact reads_stream hshort hs i
  · intro fuel hfuel
    rw [htake]
    exact connectionLoop_stream hshort hs hfuel
  · intro hcut
    rw [hwritten, List.length_take] at hcut
    rw [htake, hsent, Nat.min_eq_right (by omega)]

def threeMessages : List (List UInt8) := [[1, 2], [], [3]]

/-- `threeMessages` written three bytes at a time, read two at a time, and cut off in the header of the third. -/
def cutInHeader : RecvSocket where
  incoming := (sendMessages { answers := fun _ => 3 } threeMessages).2.written.take 12
  sizes _ := 1
  atCut_le := le_refl 0

theorem framing_round_trip_cutInHeader :
    (reads cutInHeader 0).1 = some [1, 2] ∧ (reads cutInHeader 1).1 = some [] ∧
      ∀ k, 2 ≤ k → (reads cutInHeader k).1 = none := by
  obtain ⟨count, hle, hbefore, hbehind, hreads, -⟩ :=
    framing_round_trip threeMessages (by decide) (fun _ => 3) 12 cutInHeader rfl
  have hlength : cutInHeader.incoming.length = 12 := by decide +kernel
  have hcount : count = 2 := by
    rw [hlength] at hbefore hbehind
    change count ≤ 3 at hle
    interval_cases count
    · exact absurd (hbehind (by decide)) (by decide)
    · exact absurd (hbehind (by decide)) (by decide)
    · rfl
    · exact absurd hbefore (by decide)
  subst hcount
  refine ⟨hreads 0, hreads 1, ?_⟩
  intro k hk
  rw [hreads k]
  exact List.getElem?_eq_none hk

end Quantas.Tcp
