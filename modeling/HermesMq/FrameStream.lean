import HermesMq.Frame

/-!
# Frames on a stream

`read_frame` as the code runs it: on a transport that hands out bytes in
pieces of its own choosing, with `read_exact` filling a buffer over as many
reads as it takes, and a body read in chunks. What comes out depends on the
bytes alone and not on the pieces (`readExact_ok`, `readExact_eof`), so the
stream reader is the reader of arrived bytes `readFrame` (`readFrame_fst`)
and stays in step over any number of frames.
-/

namespace HermesMq

def bodyChunk : Nat := 64 * 1024

/-- The pieces in which the transport will hand out the rest of the stream. -/
abbrev Transport := List Bytes

inductive ReadError where
  /-- `UnexpectedEof`: the stream ended inside what was asked for. -/
  | unexpectedEof
  /-- `InvalidData`: frame exceeds maximum size. -/
  | invalidData
deriving DecidableEq

namespace Transport

/-- The bytes not yet read. -/
def bytes (r : Transport) : Bytes := r.flatten

/-- One `read` into a buffer of `want` bytes: what there is of the next
piece, nothing at the end of the stream. -/
def read (want : Nat) : Transport → Bytes × Transport
  | [] => ([], [])
  | [] :: rest => read want rest
  | (b :: piece) :: rest => ((b :: piece).take want, (b :: piece).drop want :: rest)

theorem read_bytes (want : Nat) (r : Transport) :
    (r.read want).1 ++ (r.read want).2.bytes = r.bytes := by
  induction r with
  | nil => rfl
  | cons piece rest ih =>
      cases piece with
      | nil => exact ih
      | cons b piece =>
          rw [read, bytes, bytes, List.flatten_cons, List.flatten_cons, ← List.append_assoc,
            List.take_append_drop]

theorem read_length_le (want : Nat) (r : Transport) : (r.read want).1.length ≤ want := by
  induction r with
  | nil => exact Nat.zero_le _
  | cons piece rest ih =>
      cases piece with
      | nil => exact ih
      | cons b piece => exact List.length_take_le ..

/-- A read brings nothing only at the end of the stream. -/
theorem read_eq_nil {want : Nat} (hwant : want ≠ 0) {r : Transport} (h : (r.read want).1 = []) :
    r.bytes = [] ∧ (r.read want).2.bytes = [] := by
  have hempty : r.bytes = [] := by
    induction r with
    | nil => rfl
    | cons piece rest ih =>
        cases piece with
        | nil => exact ih h
        | cons b piece =>
            obtain ⟨n, rfl⟩ := Nat.exists_eq_succ_of_ne_zero hwant
            cases h
  have hall := read_bytes want r
  rw [hempty] at hall
  exact ⟨hempty, (List.append_eq_nil_iff.mp hall).2⟩

/-- `read_exact` into a buffer of `n` bytes. -/
def readExact (n : Nat) (r : Transport) : Except ReadError Bytes × Transport :=
  if _hn : n = 0 then (.ok [], r)
  else
    match r.read n with
    | ([], r) => (.error .unexpectedEof, r)
    | (b :: got, r) =>
        match readExact (n - (b :: got).length) r with
        | (.ok more, r) => (.ok (b :: got ++ more), r)
        | (.error e, r) => (.error e, r)
termination_by n
decreasing_by
  simp only [List.length_cons]
  omega

/-- One round of `read_exact`: the stream has ended, or a read brings some
bytes and the rest is asked for again. -/
theorem readExact_round {n : Nat} (hn : n ≠ 0) (r : Transport) :
    (r.bytes = [] ∧ ∃ r', r.readExact n = (.error .unexpectedEof, r') ∧ r'.bytes = []) ∨
    ∃ (got : Bytes) (r₁ : Transport), 0 < got.length ∧ got.length ≤ n ∧
      r.bytes = got ++ r₁.bytes ∧
      r.readExact n = match r₁.readExact (n - got.length) with
        | (.ok more, r') => (.ok (got ++ more), r')
        | (.error e, r') => (.error e, r') := by
  have hall := read_bytes n r
  have hle := read_length_le n r
  rw [readExact, dif_neg hn]
  split
  · rename_i r' hread
    obtain ⟨hempty, hleft⟩ := read_eq_nil hn (by rw [hread])
    rw [hread] at hleft
    exact Or.inl ⟨hempty, r', rfl, hleft⟩
  · rename_i b got r₁ hread
    rw [hread] at hall hle
    exact Or.inr ⟨b :: got, r₁, Nat.succ_pos _, hle, hall.symm, rfl⟩

/-- With enough bytes left, `read_exact` takes as many as were asked for,
whatever the pieces. -/
theorem readExact_ok {n : Nat} {r : Transport} (h : n ≤ r.bytes.length) :
    ∃ r', r.readExact n = (.ok (r.bytes.take n), r') ∧ r'.bytes = r.bytes.drop n := by
  induction n using Nat.strongRecOn generalizing r with
  | ind n ih =>
      by_cases hn : n = 0
      · subst hn
        rw [readExact, dif_pos rfl]
        exact ⟨r, rfl, rfl⟩
      · rcases readExact_round hn r with ⟨hempty, -⟩ | ⟨got, r₁, hpos, hle, hall, hround⟩
        · rw [hempty] at h
          exact absurd (Nat.le_zero.mp h) hn
        · have hrest : n - got.length ≤ r₁.bytes.length := by
            rw [hall, List.length_append] at h
            omega
          obtain ⟨r', heq, hleft⟩ := ih (n - got.length) (by omega) hrest
          rw [hround, heq]
          refine ⟨r', ?_, ?_⟩
          · rw [hall, List.take_append, List.take_of_length_le hle]
          · rw [hleft, hall, List.drop_append, List.drop_of_length_le hle, List.nil_append]

/-- With too few bytes left it fails at the end of the stream. -/
theorem readExact_eof {n : Nat} {r : Transport} (h : r.bytes.length < n) :
    ∃ r', r.readExact n = (.error .unexpectedEof, r') ∧ r'.bytes = [] := by
  induction n using Nat.strongRecOn generalizing r with
  | ind n ih =>
      rcases readExact_round (by omega : n ≠ 0) r with
        ⟨-, hend⟩ | ⟨got, r₁, hpos, hle, hall, hround⟩
      · exact hend
      · have hrest : r₁.bytes.length < n - got.length := by
          rw [hall, List.length_append] at h
          omega
        obtain ⟨r', heq, hleft⟩ := ih (n - got.length) (by omega) hrest
        rw [hround, heq]
        exact ⟨r', rfl, hleft⟩

/-- What `read_exact` returns has the length asked for. -/
theorem readExact_length {n : Nat} {r r' : Transport} {got : Bytes}
    (h : r.readExact n = (.ok got, r')) : got.length = n := by
  rcases Nat.lt_or_ge r.bytes.length n with hlt | hge
  · obtain ⟨_, heq, -⟩ := readExact_eof hlt
    rw [heq] at h
    cases h
  · obtain ⟨_, heq, -⟩ := readExact_ok hge
    rw [heq] at h
    cases h
    rw [List.length_take, Nat.min_eq_left hge]

def readLen (maxFrame : Nat) (r : Transport) : Except ReadError Nat × Transport :=
  match r.readExact 4 with
  | (.error e, r) => (.error e, r)
  | (.ok len, r) =>
      if frameLen len > maxFrame then (.error .invalidData, r) else (.ok (frameLen len), r)

/-- The loop of `read_body`. The buffer is resized by the next chunk, and
that part of it is what `read_exact` fills. -/
def readChunks (n : Nat) (buf : Bytes) (r : Transport) : Except ReadError Bytes × Transport :=
  if _hlt : buf.length < n then
    match _hread : r.readExact (min (n - buf.length) bodyChunk) with
    | (.error e, r) => (.error e, r)
    | (.ok chunk, r) => readChunks n (buf ++ chunk) r
  else (.ok buf, r)
termination_by n - buf.length
decreasing_by
  have hlen := readExact_length _hread
  have hpos : 0 < bodyChunk := by decide
  rw [List.length_append]
  omega

def readBody (n : Nat) (r : Transport) : Except ReadError Bytes × Transport := readChunks n [] r

def readFrame (maxFrame : Nat) (r : Transport) : Except ReadError Bytes × Transport :=
  match r.readLen maxFrame with
  | (.error e, r) => (.error e, r)
  | (.ok n, r) => r.readBody n

/-- `read_frame` as many times, up to the first error. -/
def readFrames (maxFrame : Nat) : Nat → Transport → Except ReadError (List Bytes) × Transport
  | 0, r => (.ok [], r)
  | k + 1, r =>
      match r.readFrame maxFrame with
      | (.error e, r) => (.error e, r)
      | (.ok body, r) =>
          match readFrames maxFrame k r with
          | (.error e, r) => (.error e, r)
          | (.ok bodies, r) => (.ok (body :: bodies), r)

/-! ## Bodies and frames -/

theorem readChunks_done {n : Nat} {buf : Bytes} (h : ¬buf.length < n) (r : Transport) :
    r.readChunks n buf = (.ok buf, r) := by
  rw [readChunks, dif_neg h]

theorem readChunks_next {n size : Nat} {buf chunk : Bytes} {r r' : Transport}
    (h : buf.length < n) (hsize : min (n - buf.length) bodyChunk = size)
    (hread : r.readExact size = (.ok chunk, r')) :
    r.readChunks n buf = r'.readChunks n (buf ++ chunk) := by
  subst hsize
  rw [readChunks, dif_pos h]
  split
  · rename_i e r₁ heq
    rw [hread] at heq
    cases heq
  · rename_i chunk₁ r₁ heq
    rw [hread] at heq
    cases heq
    rfl

theorem readChunks_error {n size : Nat} {buf : Bytes} {e : ReadError} {r r' : Transport}
    (h : buf.length < n) (hsize : min (n - buf.length) bodyChunk = size)
    (hread : r.readExact size = (.error e, r')) :
    r.readChunks n buf = (.error e, r') := by
  subst hsize
  rw [readChunks, dif_pos h]
  split
  · rename_i e₁ r₁ heq
    rw [hread] at heq
    cases heq
    rfl
  · rename_i chunk₁ r₁ heq
    rw [hread] at heq
    cases heq

/-- One round of the loop, with `missing` bytes to go: it reads some of
them, or the stream ends. -/
theorem readChunks_round {missing n : Nat} {buf : Bytes} (hn : n = buf.length + missing)
    (hpos : 0 < missing) (r : Transport) :
    ∃ size, 0 < size ∧ size ≤ missing ∧
      (size ≤ r.bytes.length → ∃ r' : Transport,
        r.readChunks n buf = r'.readChunks n (buf ++ r.bytes.take size) ∧
        r'.bytes = r.bytes.drop size ∧
        n = (buf ++ r.bytes.take size).length + (missing - size)) ∧
      (r.bytes.length < size → ∃ r', r.readChunks n buf = (.error .unexpectedEof, r')) := by
  obtain ⟨size, hsize⟩ : ∃ size, min (n - buf.length) bodyChunk = size := ⟨_, rfl⟩
  have hchunk : 0 < size := hsize ▸ lt_min (by omega) (by decide)
  have hle : size ≤ missing := by
    rw [← hsize]
    omega
  refine ⟨size, hchunk, hle, fun henough => ?_, fun hshort => ?_⟩
  · obtain ⟨r', hread, hleft⟩ := readExact_ok henough
    refine ⟨r', readChunks_next (by omega) hsize hread, hleft, ?_⟩
    rw [List.length_append, List.length_take, Nat.min_eq_left henough]
    omega
  · obtain ⟨r', hread, -⟩ := readExact_eof hshort
    exact ⟨r', readChunks_error (by omega) hsize hread⟩

/-- The chunks make up the body, whatever their number: `readChunks` is one
`read_exact` for what is missing. -/
theorem readChunks_ok {missing n : Nat} {buf : Bytes} (hn : n = buf.length + missing)
    {r : Transport} (h : missing ≤ r.bytes.length) :
    ∃ r', r.readChunks n buf = (.ok (buf ++ r.bytes.take missing), r') ∧
      r'.bytes = r.bytes.drop missing := by
  induction missing using Nat.strongRecOn generalizing buf r with
  | ind missing ih =>
      rcases Nat.eq_zero_or_pos missing with rfl | hpos
      · exact ⟨r, by rw [readChunks_done (by omega)]; simp, by simp⟩
      · obtain ⟨size, hchunk, hle, hread, -⟩ := readChunks_round hn hpos r
        obtain ⟨r₁, hround, hleft, hn₁⟩ := hread (hle.trans h)
        have hrest : missing - size ≤ r₁.bytes.length := by
          rw [hleft, List.length_drop]
          omega
        obtain ⟨r', heq, hleft'⟩ := ih (missing - size) (by omega) hn₁ hrest
        refine ⟨r', ?_, ?_⟩
        · rw [hround, heq, hleft, List.append_assoc, ← List.take_add, Nat.add_sub_cancel' hle]
        · rw [hleft', hleft, List.drop_drop, Nat.add_sub_cancel' hle]

theorem readChunks_eof {missing n : Nat} {buf : Bytes} (hn : n = buf.length + missing)
    {r : Transport} (h : r.bytes.length < missing) :
    ∃ r', r.readChunks n buf = (.error .unexpectedEof, r') := by
  induction missing using Nat.strongRecOn generalizing buf r with
  | ind missing ih =>
      obtain ⟨size, hchunk, hle, hread, hend⟩ := readChunks_round hn (by omega) r
      rcases Nat.lt_or_ge r.bytes.length size with hshort | henough
      · exact hend hshort
      · obtain ⟨r₁, hround, hleft, hn₁⟩ := hread henough
        rw [hround]
        refine ih (missing - size) (by omega) hn₁ ?_
        rw [hleft, List.length_drop]
        omega

theorem readBody_ok {n : Nat} {r : Transport} (h : n ≤ r.bytes.length) :
    ∃ r', r.readBody n = (.ok (r.bytes.take n), r') ∧ r'.bytes = r.bytes.drop n :=
  readChunks_ok (Nat.zero_add n).symm h

theorem readBody_eof {n : Nat} {r : Transport} (h : r.bytes.length < n) :
    ∃ r', r.readBody n = (.error .unexpectedEof, r') :=
  readChunks_eof (Nat.zero_add n).symm h

variable {maxFrame : Nat} {r : Transport}

/-- A stream that ends inside a header. -/
theorem readFrame_short (maxFrame : Nat) (h : r.bytes.length < 4) :
    ∃ r', r.readFrame maxFrame = (.error .unexpectedEof, r') := by
  obtain ⟨r', hread, -⟩ := readExact_eof h
  exact ⟨r', by simp only [readFrame, readLen, hread]⟩

/-- A header that declares too much. -/
theorem readFrame_tooLong (h : 4 ≤ r.bytes.length) (hlen : maxFrame < frameLen (r.bytes.take 4)) :
    ∃ r', r.readFrame maxFrame = (.error .invalidData, r') ∧ r'.bytes = r.bytes.drop 4 := by
  obtain ⟨r', hread, hleft⟩ := readExact_ok h
  exact ⟨r', by simp only [readFrame, readLen, hread, if_pos hlen], hleft⟩

/-- A header that is all right, and then the body. -/
theorem readFrame_header (h : 4 ≤ r.bytes.length) (hlen : frameLen (r.bytes.take 4) ≤ maxFrame) :
    ∃ r' : Transport, r'.bytes = r.bytes.drop 4 ∧
      r.readFrame maxFrame = r'.readBody (frameLen (r.bytes.take 4)) := by
  obtain ⟨r', hread, hleft⟩ := readExact_ok h
  exact ⟨r', hleft, by simp only [readFrame, readLen, hread, if_neg (not_lt.mpr hlen)]⟩

/-- A stream that ends inside a body. -/
theorem readFrame_cut (h : 4 ≤ r.bytes.length) (hlen : frameLen (r.bytes.take 4) ≤ maxFrame)
    (hcut : r.bytes.length < 4 + frameLen (r.bytes.take 4)) :
    ∃ r', r.readFrame maxFrame = (.error .unexpectedEof, r') := by
  obtain ⟨r₁, hleft, heq⟩ := readFrame_header h hlen
  rw [heq]
  refine readBody_eof ?_
  rw [hleft, List.length_drop]
  omega

theorem readFrame_ok (h : 4 + frameLen (r.bytes.take 4) ≤ r.bytes.length)
    (hlen : frameLen (r.bytes.take 4) ≤ maxFrame) :
    ∃ r', r.readFrame maxFrame = (.ok ((r.bytes.drop 4).take (frameLen (r.bytes.take 4))), r') ∧
      r'.bytes = (r.bytes.drop 4).drop (frameLen (r.bytes.take 4)) := by
  obtain ⟨r₁, hleft, heq⟩ := readFrame_header (by omega) hlen
  rw [heq, ← hleft]
  refine readBody_ok ?_
  rw [hleft, List.length_drop]
  omega

/-- The stream reader is the reader of arrived bytes, given the bytes of the
frame at the front of the stream. -/
theorem readFrame_fst (maxFrame : Nat) (r : Transport) :
    (r.readFrame maxFrame).1 =
      match HermesMq.readFrame maxFrame (r.bytes.take (4 + frameLen (r.bytes.take 4))) with
      | .more => .error .unexpectedEof
      | .tooLong => .error .invalidData
      | .done body => .ok body := by
  have hheader : (r.bytes.take (4 + frameLen (r.bytes.take 4))).take 4 = r.bytes.take 4 := by
    rw [List.take_take, Nat.min_eq_left (Nat.le_add_right ..)]
  rw [HermesMq.readFrame, hheader, List.length_take, List.drop_take, Nat.add_sub_cancel_left]
  rcases Nat.lt_or_ge r.bytes.length 4 with hshort | hlong
  · obtain ⟨r', heq⟩ := readFrame_short maxFrame hshort
    rw [heq, if_pos (by omega)]
  · rw [if_neg (by omega)]
    by_cases hlen : frameLen (r.bytes.take 4) > maxFrame
    · obtain ⟨r', heq, -⟩ := readFrame_tooLong hlong hlen
      rw [heq, if_pos hlen]
    · rw [if_neg hlen]
      by_cases hcut : r.bytes.length < 4 + frameLen (r.bytes.take 4)
      · obtain ⟨r', heq⟩ := readFrame_cut hlong (not_lt.mp hlen) hcut
        rw [heq, if_pos (by omega)]
      · obtain ⟨r', heq, -⟩ := readFrame_ok (not_lt.mp hcut) (not_lt.mp hlen)
        rw [heq, if_neg (by omega)]

/-- A written frame at the front of the stream. -/
theorem readFrame_written {body rest : Bytes} (hmax : maxFrame < 2 ^ 32)
    (hbody : body.length ≤ maxFrame) (hr : r.bytes = writeFrame body ++ rest) :
    ∃ r', r.readFrame maxFrame = (.ok body, r') ∧ r'.bytes = rest := by
  have htake : r.bytes.take 4 = frameHeader body.length := by
    rw [hr, writeFrame, List.append_assoc]
    exact List.take_left' rfl
  have hdrop : r.bytes.drop 4 = body ++ rest := by
    rw [hr, writeFrame, List.append_assoc]
    exact List.drop_left' rfl
  have hlen : frameLen (r.bytes.take 4) = body.length := by
    rw [htake, frameLen_frameHeader, Nat.mod_eq_of_lt (hbody.trans_lt hmax)]
  have hall : r.bytes.length = 4 + body.length + rest.length := by
    rw [hr, List.length_append, writeFrame, List.length_append]
    rfl
  have hall' : 4 + frameLen (r.bytes.take 4) ≤ r.bytes.length := by omega
  have hlen' : frameLen (r.bytes.take 4) ≤ maxFrame := by omega
  obtain ⟨r', heq, hleft⟩ := readFrame_ok hall' hlen'
  rw [hlen, hdrop, List.take_left] at heq
  rw [hlen, hdrop, List.drop_left] at hleft
  exact ⟨r', heq, hleft⟩

/-- Written frames at the front of the stream. -/
theorem readFrames_written (hmax : maxFrame < 2 ^ 32) {bodies : List Bytes} {rest : Bytes}
    (hbodies : ∀ body ∈ bodies, body.length ≤ maxFrame)
    (hr : r.bytes = (bodies.map writeFrame).flatten ++ rest) :
    ∃ r', r.readFrames maxFrame bodies.length = (.ok bodies, r') ∧ r'.bytes = rest := by
  induction bodies generalizing r with
  | nil => exact ⟨r, rfl, hr⟩
  | cons body bodies ih =>
      obtain ⟨hbody, hbodies⟩ := List.forall_mem_cons.mp hbodies
      rw [List.map_cons, List.flatten_cons, List.append_assoc] at hr
      obtain ⟨r₁, hfirst, hleft⟩ := readFrame_written hmax hbody hr
      obtain ⟨r', hrest, hend⟩ := ih hbodies hleft
      exact ⟨r', by simp only [List.length_cons, readFrames, hfirst, hrest], hend⟩

end Transport

/-- Frames are read as they were written, in any pieces, and leave what
follows them; a header that declares too much is refused after its four
bytes; a stream that ends inside a frame is an error; and a body of any
length is read to exactly that length, if the stream has it. -/
theorem frames_survive_wire {maxFrame : Nat} (hmax : maxFrame < 2 ^ 32) :
    (∀ (bodies : List Bytes) (rest : Bytes) (r : Transport),
      (∀ body ∈ bodies, body.length ≤ maxFrame) →
      r.bytes = (bodies.map writeFrame).flatten ++ rest →
      ∃ r', r.readFrames maxFrame bodies.length = (.ok bodies, r') ∧ r'.bytes = rest) ∧
    (∀ r : Transport, 4 ≤ r.bytes.length → maxFrame < frameLen (r.bytes.take 4) →
      ∃ r', r.readFrame maxFrame = (.error .invalidData, r') ∧ r'.bytes = r.bytes.drop 4) ∧
    (∀ r : Transport, r.bytes.length < 4 ∨ (frameLen (r.bytes.take 4) ≤ maxFrame ∧
      r.bytes.length < 4 + frameLen (r.bytes.take 4)) →
      ∃ r', r.readFrame maxFrame = (.error .unexpectedEof, r')) ∧
    ∀ (n : Nat) (r : Transport),
      (n ≤ r.bytes.length → ∃ r' body, r.readBody n = (.ok body, r') ∧
        body.length = n ∧ r.bytes = body ++ r'.bytes) ∧
      (r.bytes.length < n → ∃ r', r.readBody n = (.error .unexpectedEof, r')) := by
  refine ⟨fun _ _ _ => Transport.readFrames_written hmax, fun r => Transport.readFrame_tooLong,
    fun r hends => ?_, fun n r => ⟨fun hn => ?_, Transport.readBody_eof⟩⟩
  · rcases Nat.lt_or_ge r.bytes.length 4 with hshort | hlong
    · exact Transport.readFrame_short maxFrame hshort
    · obtain ⟨hlen, hcut⟩ := hends.resolve_left (not_lt.mpr hlong)
      exact Transport.readFrame_cut hlong hlen hcut
  · obtain ⟨r', heq, hleft⟩ := Transport.readBody_ok hn
    refine ⟨r', _, heq, ?_, ?_⟩
    · rw [List.length_take, Nat.min_eq_left hn]
    · rw [hleft, List.take_append_drop]

/-- Two frames, the first one empty, in small pieces and with a byte more;
and a header that declares one byte too many. -/
theorem frames_survive_wire_in_pieces :
    (∃ r', Transport.readFrames maxClientFrame 2
        [[0], [0], [0], [], [0], [0], [0, 0], [1, 7], [9]] = (.ok [[], [7]], r') ∧
      Transport.bytes r' = [9]) ∧
    ∃ r', Transport.readFrame maxClientFrame [[0, 32], [0, 1, 9]] = (.error .invalidData, r') ∧
      Transport.bytes r' = [9] :=
  have hwire := frames_survive_wire (by decide : maxClientFrame < 2 ^ 32)
  ⟨hwire.1 [[], [7]] [9] _ (by decide) (by decide), hwire.2.1 _ (by decide) (by decide)⟩

end HermesMq
