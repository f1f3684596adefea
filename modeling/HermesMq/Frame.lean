import HermesMq.Types

/-!
# Frames

A frame is a body behind its length. `write_frame` writes the length as a
big-endian `u32`, so a body of 2^32 bytes or more gets a header that is too
short. `read_frame` asks for four bytes and then for as many as they say;
here it is given what has arrived so far, and says if that is a frame.
-/

namespace HermesMq

def maxClientFrame : Nat := 2 * 1024 * 1024

def maxPeerFrame : Nat := 64 * 1024 * 1024

/-- `(n as u32).to_be_bytes()`. -/
def frameHeader (n : Nat) : Bytes :=
  [.ofNat (n / 2 ^ 24), .ofNat (n / 2 ^ 16), .ofNat (n / 2 ^ 8), .ofNat n]

/-- `u32::from_be_bytes`. -/
def frameLen (header : Bytes) : Nat := header.foldl (fun n b => n * 256 + b.toNat) 0

def writeFrame (body : Bytes) : Bytes := frameHeader body.length ++ body

inductive FrameRead where
  | more
  | tooLong
  | done (body : Bytes)
deriving DecidableEq

/-- `read_frame` on the bytes that have arrived of a frame. -/
def readFrame (maxFrame : Nat) (buf : Bytes) : FrameRead :=
  if buf.length < 4 then .more
  else if frameLen (buf.take 4) > maxFrame then .tooLong
  else if buf.length < 4 + frameLen (buf.take 4) then .more
  else .done (buf.drop 4)

theorem frameLen_frameHeader (n : Nat) : frameLen (frameHeader n) = n % 2 ^ 32 := by
  simp only [frameLen, frameHeader, List.foldl_cons, List.foldl_nil, UInt8.toNat_ofNat']
  omega

/-- A frame is read as it was written if its body is within the limit of the
reader. -/
theorem readFrame_writeFrame {maxFrame : Nat} {body : Bytes} (hbody : body.length < 2 ^ 32) :
    readFrame maxFrame (writeFrame body) = .done body ↔ body.length ≤ maxFrame := by
  have htake : (writeFrame body).take 4 = frameHeader body.length := List.take_left' rfl
  have hdrop : (writeFrame body).drop 4 = body := List.drop_left' rfl
  have hlen : (writeFrame body).length = 4 + body.length := List.length_append
  rw [readFrame, htake, hdrop, hlen, frameLen_frameHeader, Nat.mod_eq_of_lt hbody,
    if_neg (by omega), if_neg (Nat.lt_irrefl _)]
  split
  · exact iff_of_false (fun h => by cases h) (by omega)
  · exact iff_of_true rfl (by omega)

/-- What arrives of a frame that was written and reads as a frame is a
header and a first part of the body. -/
theorem readFrame_prefix {maxFrame : Nat} {buf body b : Bytes} (hbuf : buf <+: writeFrame body)
    (h : readFrame maxFrame buf = .done b) : b <+: body ∧ buf = frameHeader body.length ++ b := by
  have hlen : 4 ≤ buf.length := by
    by_contra hlt
    rw [readFrame, if_pos (Nat.lt_of_not_le hlt)] at h
    cases h
  have hb : buf.drop 4 = b := by
    rw [readFrame, if_neg (Nat.not_lt.mpr hlen)] at h
    split at h
    · cases h
    · split at h
      · cases h
      · exact FrameRead.done.inj h
  have hheader : buf.take 4 = frameHeader body.length := by
    obtain ⟨t, ht⟩ := hbuf
    have htake : (buf ++ t).take 4 = buf.take 4 := List.take_append_of_le_length hlen
    rw [← htake, ht]
    exact List.take_left' rfl
  have hsplit : buf = frameHeader body.length ++ b := by
    rw [← hheader, ← hb, List.take_append_drop]
  refine ⟨?_, hsplit⟩
  rw [hsplit, writeFrame] at hbuf
  exact (List.prefix_append_right_inj _).mp hbuf

end HermesMq
