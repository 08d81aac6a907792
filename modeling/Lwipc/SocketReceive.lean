import Lwipc.SocketTransport

/-!
# Receiving from an arbitrary stream

Whatever bytes arrive, and however `::recv` cuts them up, `handle_client` delivers the frames at the
start of the stream up to the first place where there is none. A frame is found by its length field
alone, so a stream has one longest sequence of frames at its start.
-/

namespace Lwipc.SocketTransport

open LittleEndian IPCMessage

/-- A complete frame that the receiver accepts: the length within the limits, as many bytes, and in
these a header with the right magic and version whose payload fits. -/
def IsFrame (f : List Byte) : Prop :=
  64 ≤ fromLE (f.take 4) ∧ fromLE (f.take 4) ≤ kMaxMessageSize ∧
    f.length = 4 + fromLE (f.take 4) ∧ Accepts (f.drop 4)

/-- The header in a frame and the bytes after it that it announces. -/
def frameContents (f : List Byte) : IPCHeader × List Byte :=
  (IPCHeader.ofBytes (f.drop 4), (f.drop 68).take (IPCHeader.ofBytes (f.drop 4)).dataLength.toNat)

/-- The loop of `handle_client` with `running_` true throughout: what it passes to the callback, each
with what is left of the stream then; nothing if it is still going after `fuel` rounds. -/
def handleLoop (r : Nat → Int) : Nat → Nat → List Byte →
    Option (List ((IPCHeader × List Byte) × List Byte))
  | 0, _, _ => none
  | fuel + 1, i, st =>
    let (m, i', st') := recvIpcMessage r i st
    if m.valid then (handleLoop r fuel i' st').map fun out => (m.contents, st') :: out else some []

/-- The contents of the frames, each with what is left of the stream behind it. -/
def receipts : List (List Byte) → List Byte → List ((IPCHeader × List Byte) × List Byte)
  | [], _ => []
  | f :: fs, st => (frameContents f, st.drop f.length) :: receipts fs (st.drop f.length)

variable {r : Nat → Int} {fuel i : Nat} {st f : List Byte}

/-- A finished loop is what `handle_client` does, whatever `running_` is later. -/
theorem handleClient_of_handleLoop {out : List ((IPCHeader × List Byte) × List Byte)}
    (h : handleLoop r fuel i st = some out) (run : List Bool) :
    handleClient r (List.replicate fuel true ++ run) i st = out.map Prod.fst := by
  induction fuel generalizing i st out with
  | zero => cases h
  | succ fuel ih =>
    rw [List.replicate_succ, List.cons_append]
    rcases hrec : recvIpcMessage r i st with ⟨m, i', st'⟩
    simp only [handleLoop, hrec] at h
    simp only [handleClient, hrec]
    split at h
    · rename_i hv
      obtain ⟨out', ho, rfl⟩ := Option.map_eq_some_iff.1 h
      rw [if_pos hv, ih ho]
      rfl
    · rename_i hv
      cases h
      rw [if_neg hv]
      rfl

theorem IsFrame.eq_take (h : IsFrame f) (hp : f <+: st) : f = st.take (4 + fromLE (st.take 4)) := by
  obtain ⟨h1, -, hlen, -⟩ := h
  obtain ⟨l, rfl⟩ := hp
  rw [List.take_append_of_le_length (show 4 ≤ f.length by omega), ← hlen, List.take_left' rfl]

theorem IsFrame.unique {g : List Byte} (hf : IsFrame f) (hg : IsFrame g) (hpf : f <+: st)
    (hpg : g <+: st) : f = g :=
  (hf.eq_take hpf).trans (hg.eq_take hpg).symm

/-- With a frame at the start of the stream, `recv_ipc_message` returns what is in it. -/
theorem recvIpcMessage_of_isFrame (hr : ∀ j, 0 < r j) (h : IsFrame f) (hp : f <+: st) :
    ∃ m i', recvIpcMessage r i st = (m, i', st.drop f.length) ∧ m.valid = true ∧
      m.contents = frameContents f := by
  have hf := h.eq_take hp
  obtain ⟨h1, h2, h3, hacc⟩ := h
  obtain ⟨l, rfl⟩ := hp
  have htake : (f ++ l).take 4 = f.take 4 := List.take_append_of_le_length (by omega)
  obtain ⟨i', hrec⟩ := exists_recvIpcMessage (i := i) hr rfl (by rw [htake]; exact h1)
    (by rw [htake]; exact h2) (by rw [htake, ← h3, List.length_append]; exact Nat.le_add_right _ _)
  have hbuf : ((f ++ l).drop 4).take (fromLE ((f ++ l).take 4)) = f.drop 4 := by
    rw [htake, List.drop_append_of_le_length (by omega), List.take_left' (by rw [List.length_drop]; omega)]
  rw [hbuf, htake, ← h3] at hrec
  obtain ⟨hv, hcont⟩ := fromBuffer_of_accepts hacc
  refine ⟨_, i', hrec, hv, ?_⟩
  rw [hcont, List.drop_drop]
  rfl

/-- A valid message was read from a frame at the start of the stream. -/
theorem isFrame_of_recvIpcMessage {m : IPCMessage} {i' : Nat} {st' : List Byte}
    (h : recvIpcMessage r i st = (m, i', st')) (hv : m.valid = true) : ∃ f, IsFrame f ∧ f <+: st := by
  obtain ⟨h1, h2, h3, rfl, -⟩ := recvIpcMessage_of_valid h hv
  have htake : (st.take (4 + fromLE (st.take 4))).take 4 = st.take 4 := by
    rw [List.take_take, Nat.min_eq_left (Nat.le_add_right _ _)]
  refine ⟨st.take (4 + fromLE (st.take 4)), ⟨?_, ?_, ?_, ?_⟩, List.take_prefix _ _⟩
  · rw [htake]; exact h1
  · rw [htake]; exact h2
  · rw [htake, List.length_take, Nat.min_eq_left h3]
  · rw [List.drop_take, Nat.add_sub_cancel_left]
    exact accepts_of_valid hv

theorem handleLoop_eq (hr : ∀ j, 0 < r j) {fs : List (List Byte)} (hfs : ∀ f ∈ fs, IsFrame f)
    (hp : fs.flatten <+: st) (hmax : ∀ f, IsFrame f → ¬ fs.flatten ++ f <+: st)
    (hfuel : fs.length < fuel) : handleLoop r fuel i st = some (receipts fs st) := by
  induction fs generalizing fuel i st with
  | nil =>
    obtain ⟨fuel, rfl⟩ : ∃ k, fuel = k + 1 := ⟨fuel - 1, by omega⟩
    rcases hrec : recvIpcMessage r i st with ⟨m, i', st'⟩
    simp only [handleLoop, hrec]
    rw [if_neg]
    · rfl
    · intro hv
      obtain ⟨f, hf, hpf⟩ := isFrame_of_recvIpcMessage hrec hv
      exact hmax f hf hpf
  | cons f fs ih =>
    obtain ⟨fuel, rfl⟩ : ∃ k, fuel = k + 1 := ⟨fuel - 1, by omega⟩
    obtain ⟨l, rfl⟩ := hp
    have hf := hfs f (by simp)
    have hrest : (f ++ fs.flatten ++ l).drop f.length = fs.flatten ++ l := by
      rw [List.append_assoc, List.drop_left' rfl]
    have hpre : f <+: f ++ fs.flatten ++ l := ⟨fs.flatten ++ l, by simp⟩
    obtain ⟨m, i', hrec, hv, hcont⟩ := recvIpcMessage_of_isFrame (i := i) hr hf hpre
    rw [hrest] at hrec
    rw [List.flatten_cons]
    simp only [handleLoop, hrec, hv, if_true]
    rw [ih (fun g hg => hfs g (by simp [hg])) ⟨l, rfl⟩ ?_ (by rw [List.length_cons] at hfuel; omega),
      receipts, hrest, hcont]
    · rfl
    · intro g hg hpg
      refine hmax g hg ?_
      rw [List.flatten_cons, List.append_assoc, List.append_assoc]
      exact (List.prefix_append_right_inj f).2 hpg

theorem exists_frames (st : List Byte) : ∃ fs : List (List Byte), (∀ f ∈ fs, IsFrame f) ∧
    fs.flatten <+: st ∧ ∀ f, IsFrame f → ¬ fs.flatten ++ f <+: st := by
  induction hn : st.length using Nat.strong_induction_on generalizing st with
  | _ n ih =>
    by_cases hex : ∃ f, IsFrame f ∧ f <+: st
    · obtain ⟨f, hf, l, rfl⟩ := hex
      have hpos : 0 < f.length := by rw [hf.2.2.1]; omega
      obtain ⟨fs, hfs, hp, hmax⟩ := ih l.length (by rw [List.length_append] at hn; omega) l rfl
      refine ⟨f :: fs, ?_, (List.prefix_append_right_inj f).2 hp, fun g hg hpg => hmax g hg ?_⟩
      · intro g hg
        rcases List.mem_cons.1 hg with rfl | hg
        · exact hf
        · exact hfs g hg
      · rw [List.flatten_cons, List.append_assoc] at hpg
        exact (List.prefix_append_right_inj f).1 hpg
    · exact ⟨[], by simp, List.nil_prefix, fun f hf hp => hex ⟨f, hf, hp⟩⟩

theorem prefix_of_frames {fs gs : List (List Byte)} (hfs : ∀ f ∈ fs, IsFrame f) (hp : fs.flatten <+: st)
    (hmax : ∀ f, IsFrame f → ¬ fs.flatten ++ f <+: st) (hgs : ∀ g ∈ gs, IsFrame g)
    (hpg : gs.flatten <+: st) : gs <+: fs := by
  induction gs generalizing fs st with
  | nil => exact List.nil_prefix
  | cons g gs ih =>
    rw [List.flatten_cons] at hpg
    have hg := hgs g (by simp)
    have hpre : g <+: st := (List.prefix_append g gs.flatten).trans hpg
    cases fs with
    | nil => exact absurd hpre (hmax g hg)
    | cons f fs =>
      rw [List.flatten_cons] at hp
      have hf := hfs f (by simp)
      obtain rfl : f = g := hf.unique hg ((List.prefix_append f fs.flatten).trans hp) hpre
      obtain ⟨l, rfl⟩ := hpre
      refine (List.prefix_cons_inj f).2 (ih (fun f' h => hfs f' (by simp [h]))
        ((List.prefix_append_right_inj f).1 hp) (fun f' hf' hpf => hmax f' hf' ?_)
        (fun g' h => hgs g' (by simp [h])) ((List.prefix_append_right_inj f).1 hpg))
      rw [List.flatten_cons, List.append_assoc]
      exact (List.prefix_append_right_inj f).2 hpf

theorem map_fst_receipts (fs : List (List Byte)) (st : List Byte) :
    (receipts fs st).map Prod.fst = fs.map frameContents := by
  induction fs generalizing st with
  | nil => rfl
  | cons f fs ih => rw [receipts, List.map_cons, ih, List.map_cons]

/-- For every stream there is one list of frames, the longest at its start, such that the loop comes to
its end and delivers the contents of these frames in order, each message leaving the stream just
behind its frame, whatever the lengths of the chunks that `::recv` returns. -/
theorem receives_exactly_frames (st : List Byte) : ∃ fs : List (List Byte), (∀ f ∈ fs, IsFrame f) ∧
    fs.flatten <+: st ∧
    (∀ gs : List (List Byte), (∀ g ∈ gs, IsFrame g) → gs.flatten <+: st → gs <+: fs) ∧
    ∀ (r : Nat → Int) (i fuel : Nat), (∀ j, 0 < r j) → fs.length < fuel →
      handleLoop r fuel i st = some (receipts fs st) ∧
      ∀ run, handleClient r (List.replicate fuel true ++ run) i st = fs.map frameContents := by
  obtain ⟨fs, hfs, hp, hmax⟩ := exists_frames st
  refine ⟨fs, hfs, hp, fun gs hgs hpg => prefix_of_frames hfs hp hmax hgs hpg, ?_⟩
  intro r i fuel hr hfuel
  have hloop : handleLoop r fuel i st = some (receipts fs st) := handleLoop_eq hr hfs hp hmax hfuel
  refine ⟨hloop, fun run => ?_⟩
  rw [handleClient_of_handleLoop hloop run, map_fst_receipts]

/-- A frame with a payload of one byte and two bytes behind it that are not announced, then a length
that is too small; received in chunks of one to three bytes. -/
theorem receives_exactly_frames_slack : ∃ (f : List Byte) (fs : List (List Byte)) (fuel : Nat),
    IsFrame f ∧ [f] <+: fs ∧ (frameContents f).2 = [5] ∧
      handleLoop (fun j => (j : Int) % 3 + 1) fuel 0 (f ++ [9, 0, 0, 0]) =
        some (receipts fs (f ++ [9, 0, 0, 0])) := by
  let f : List Byte := bytes (67 : BitVec 32) ++ (new .default (some fun _ => 5) 1).toBuffer ++ [6, 6]
  have hf : IsFrame f := by
    have hall : 64 ≤ fromLE (f.take 4) ∧ fromLE (f.take 4) ≤ kMaxMessageSize ∧
        f.length = 4 + fromLE (f.take 4) ∧ 64 ≤ (f.drop 4).length ∧
        (IPCHeader.ofBytes (f.drop 4)).valid = true ∧
        64 + (IPCHeader.ofBytes (f.drop 4)).dataLength.toNat ≤ (f.drop 4).length := by decide +kernel
    exact hall
  obtain ⟨fs, -, -, hmax, hloop⟩ := receives_exactly_frames (f ++ [9, 0, 0, 0])
  refine ⟨f, fs, fs.length + 1, hf, hmax [f] (by simpa using hf) (by simp), by decide +kernel, ?_⟩
  exact (hloop _ 0 _ (fun j => by omega) (Nat.lt_succ_self _)).1

end Lwipc.SocketTransport
