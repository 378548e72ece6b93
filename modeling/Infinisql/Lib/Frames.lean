import Infinisql.Lib.Codec

/-!
# Frames that begin with their own length

A byte stream carries frames back to back, and the first eight bytes of a
frame are its length, themselves included. Whoever reads the stream gets it in
pieces that have nothing to do with the frames. What it may do with the bytes
it has is cut off the frames that are complete and keep the rest, and the two
lemmas at the end say that this never goes wrong: however much of a stream of
frames has been read, it is some of the frames and an incomplete rest, and a
rest with nothing behind it is empty.
-/

namespace Infinisql.Lib

/-- The first eight bytes say how long the whole is. -/
def SelfSized (f : List UInt8) : Prop :=
  8 ≤ f.length ∧ ofLeBytes (f.take 8) = f.length

/-- There is no frame at the front: not even its length is there, or not all
of it is. -/
def Incomplete (buf : List UInt8) : Prop :=
  buf.length < 8 ∨ buf.length < ofLeBytes (buf.take 8)

variable {f buf more : List UInt8} {fs : List (List UInt8)}

theorem incomplete_nil : Incomplete [] := Or.inl (by decide)

/-- A body with its length in front. -/
theorem selfSized_leBytes {body : List UInt8}
    (h : 8 + body.length < 2 ^ 64) :
    SelfSized (leBytes 8 (8 + body.length) ++ body) := by
  have hlen : (leBytes 8 (8 + body.length) ++ body).length =
      8 + body.length := by
    rw [List.length_append, length_leBytes]
  refine ⟨by omega, ?_⟩
  rw [List.take_left' (length_leBytes ..), ofLeBytes_leBytes, hlen]
  exact Nat.mod_eq_of_lt h

/-- A frame is told by its first eight bytes, with whatever behind it. -/
theorem SelfSized.length_eq (h : SelfSized f) (more : List UInt8) :
    ofLeBytes ((f ++ more).take 8) = f.length := by
  rw [List.take_append_of_le_length h.1, h.2]

/-- What is read of a frame before its end is incomplete. -/
theorem SelfSized.incomplete_of_lt (h : SelfSized f)
    (heq : buf ++ more = f) (hlt : buf.length < f.length) :
    Incomplete buf := by
  rcases Nat.lt_or_ge buf.length 8 with hshort | hlong
  · exact Or.inl hshort
  · refine Or.inr ?_
    have htake : buf.take 8 = f.take 8 := by
      rw [← heq, List.take_append_of_le_length hlong]
    rw [htake, h.2]
    exact hlt

/-- However much of a stream of frames there is, it is some of the frames and
an incomplete rest. -/
theorem cut_frames (hfs : ∀ f ∈ fs, SelfSized f)
    (heq : buf ++ more = fs.flatten) :
    ∃ whole rest tail, fs = whole ++ rest ∧ buf = whole.flatten ++ tail ∧
      tail ++ more = rest.flatten ∧ Incomplete tail := by
  induction fs generalizing buf with
  | nil =>
      rw [List.flatten_nil, List.append_eq_nil_iff] at heq
      exact ⟨[], [], [], rfl, heq.1, by rw [heq.2]; rfl, incomplete_nil⟩
  | cons f fs ih =>
      have hf := hfs f (List.mem_cons_self ..)
      rw [List.flatten_cons] at heq
      rcases Nat.lt_or_ge buf.length f.length with hpart | hwhole
      · have hbuf : buf = f.take buf.length := by
          have htake := congrArg (List.take buf.length) heq
          rwa [List.take_left' rfl,
            List.take_append_of_le_length (Nat.le_of_lt hpart)] at htake
        have hjoin : buf ++ f.drop buf.length = f := by
          rw [hbuf, List.length_take, Nat.min_eq_left (Nat.le_of_lt hpart),
            List.take_append_drop]
        exact ⟨[], f :: fs, buf, rfl, rfl, heq,
          hf.incomplete_of_lt hjoin hpart⟩
      · have hbuf : buf = f ++ buf.drop f.length := by
          have htake := congrArg (List.take f.length) heq
          rw [List.take_append_of_le_length hwhole, List.take_left' rfl]
            at htake
          rw [← htake, List.length_take, Nat.min_eq_left hwhole,
            List.take_append_drop]
        have hrest : buf.drop f.length ++ more = fs.flatten := by
          rw [hbuf, List.append_assoc] at heq
          exact List.append_cancel_left heq
        obtain ⟨whole, rest, tail, hsplit, hdrop, htail, hinc⟩ :=
          ih (fun g hg => hfs g (List.mem_cons_of_mem _ hg)) hrest
        refine ⟨f :: whole, rest, tail, by rw [hsplit, List.cons_append], ?_,
          htail, hinc⟩
        rw [hbuf, List.flatten_cons, List.append_assoc, ← hdrop]

/-- A stream of frames that has no frame at its front is empty. -/
theorem eq_nil_of_incomplete (hfs : ∀ f ∈ fs, SelfSized f)
    (h : Incomplete fs.flatten) : fs = [] := by
  cases fs with
  | nil => rfl
  | cons f fs =>
      have hf := hfs f (List.mem_cons_self ..)
      have hlen := hf.length_eq fs.flatten
      have hpos := hf.1
      rw [Incomplete, List.flatten_cons, hlen, List.length_append] at h
      omega

end Infinisql.Lib
