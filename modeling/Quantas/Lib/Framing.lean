import Mathlib

/-!
# Length-prefixed frames

A frame is a header that tells a length, and as many items as it tells. A stream of frames can be read frame by frame
from the front. When it is cut off anywhere, what can be read are the payloads of the frames before the cut, and then
nothing more: a frame that is cut is not taken for another.
-/

namespace Lib

/-- Headers of a fixed width, for the lengths below a bound. -/
structure Header (β : Type*) where
  width : Nat
  bound : Nat
  encode : Nat → List β
  decode : List β → Nat
  length_encode : ∀ n, (encode n).length = width
  decode_encode : ∀ n < bound, decode (encode n) = n

namespace Header
variable {β : Type*} (H : Header β)

def frame (payload : List β) : List β := H.encode payload.length ++ payload

def stream (payloads : List (List β)) : List β := payloads.flatMap H.frame

def next? (s : List β) : Option (List β × List β) :=
  if s.length < H.width then none
  else
    let body := s.drop H.width
    let length := H.decode (s.take H.width)
    if body.length < length then none else some (body.take length, body.drop length)

/-- The payloads whose frames are among the first `k` items of a stream. -/
def complete : List (List β) → Nat → List (List β)
  | [], _ => []
  | p :: payloads, k => if (H.frame p).length ≤ k then p :: complete payloads (k - (H.frame p).length) else []

variable {H} {p : List β} {payloads : List (List β)} {k : Nat}

theorem length_frame : (H.frame p).length = H.width + p.length := by
  unfold frame
  rw [List.length_append, H.length_encode]

@[simp] theorem stream_nil : H.stream [] = [] := rfl

@[simp] theorem stream_cons : H.stream (p :: payloads) = H.frame p ++ H.stream payloads := rfl

theorem next?_frame (hp : p.length < H.bound) (rest : List β) : H.next? (H.frame p ++ rest) = some (p, rest) := by
  have hwidth := H.length_encode p.length
  unfold next? frame
  rw [List.append_assoc, List.take_left' hwidth, List.drop_left' hwidth, H.decode_encode _ hp]
  rw [if_neg (by rw [List.length_append, hwidth]; omega)]
  dsimp only
  rw [if_neg (by rw [List.length_append]; omega), List.take_left, List.drop_left]

theorem next?_take_frame (hp : p.length < H.bound) (hk : k < (H.frame p).length) :
    H.next? ((H.frame p).take k) = none := by
  have hwidth := H.length_encode p.length
  rw [length_frame] at hk
  have hlength : ((H.frame p).take k).length = k := by
    rw [List.length_take, length_frame]
    omega
  unfold next?
  by_cases hheader : k < H.width
  · rw [if_pos (by omega)]
  · have htake : ((H.frame p).take k).take H.width = H.encode p.length := by
      unfold frame
      rw [List.take_take, Nat.min_eq_left (by omega), List.take_left' hwidth]
    rw [if_neg (by omega), htake, H.decode_encode _ hp]
    dsimp only
    rw [List.length_drop, hlength, if_pos (by omega)]

theorem take_stream_cons_of_le (hk : (H.frame p).length ≤ k) :
    (H.stream (p :: payloads)).take k = H.frame p ++ (H.stream payloads).take (k - (H.frame p).length) := by
  rw [stream_cons, List.take_append, List.take_of_length_le hk]

theorem take_stream_cons_of_lt (hk : k < (H.frame p).length) :
    (H.stream (p :: payloads)).take k = (H.frame p).take k := by
  rw [stream_cons, List.take_append_of_le_length (by omega)]

/-! ## The complete payloads -/

theorem complete_prefix : H.complete payloads k <+: payloads := by
  induction payloads generalizing k with
  | nil => exact List.prefix_refl []
  | cons p payloads ih =>
    unfold complete
    split_ifs with hk
    · exact List.cons_prefix_cons.mpr ⟨rfl, ih⟩
    · exact List.nil_prefix

theorem length_stream_complete : (H.stream (H.complete payloads k)).length ≤ k := by
  induction payloads generalizing k with
  | nil => exact Nat.zero_le k
  | cons p payloads ih =>
    unfold complete
    split_ifs with hk
    · have := ih (k := k - (H.frame p).length)
      rw [stream_cons, List.length_append]
      omega
    · exact Nat.zero_le k

theorem lt_length_of_complete {rest : List (List β)} (h : H.complete payloads k ++ p :: rest = payloads) :
    k < (H.stream (H.complete payloads k ++ [p])).length := by
  induction payloads generalizing k with
  | nil => simp at h
  | cons q payloads ih =>
    unfold complete at h ⊢
    split_ifs at h ⊢ with hk
    · have := ih (k := k - (H.frame q).length) (List.cons.inj h).2
      rw [List.cons_append, stream_cons, List.length_append]
      omega
    · obtain ⟨rfl, -⟩ := List.cons.inj h
      simpa using hk

end Header

end Lib
