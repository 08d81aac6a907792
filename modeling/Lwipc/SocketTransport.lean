import Lwipc.Lib.Runs
import Lwipc.IPCMessage

/-!
# Framed messages over a byte stream

The sending side is a machine: `SocketClient::send` on a connected client, one `::send` a step, each
of which appends a positive number of the requested bytes to the stream or fails and appends nothing.
The receiving side is `handle_client` reading the stream, where `r` says what each `::recv` returns:
the `i`-th one fails if `r i` is not positive and otherwise returns `r i` bytes, or as many as are
requested and there. A stream that is used up stands for a peer that closed or sends nothing more;
either way nothing further is delivered.
-/

namespace Lwipc.SocketTransport

open LittleEndian IPCMessage

def kMaxMessageSize : Nat := 64 * 1024 * 1024

/-! ### Receiving -/

/-- The bytes, if all `n` could be read, the number of `::recv` calls made and what is left. -/
def recvAll (r : Nat → Int) (n i : Nat) (st : List Byte) : Option (List Byte) × Nat × List Byte :=
  if _ : n = 0 then (some [], i, st)
  else if hr : r i ≤ 0 ∨ st = [] then (none, i + 1, st)
  else
    let k := min (r i).toNat (min n st.length)
    let (bs, i', st') := recvAll r (n - k) (i + 1) (st.drop k)
    (bs.map (st.take k ++ ·), i', st')
  termination_by n
  decreasing_by
    have := List.length_pos_iff.2 fun h => hr (.inr h)
    omega

def recvIpcMessage (r : Nat → Int) (i : Nat) (st : List Byte) : IPCMessage × Nat × List Byte :=
  match recvAll r 4 i st with
  | (none, i, st) => (default, i, st)
  | (some b, i, st) =>
    if fromLE b < 64 ∨ fromLE b > kMaxMessageSize then (default, i, st)
    else
      match recvAll r (fromLE b) i st with
      | (none, i, st) => (default, i, st)
      | (some buf, i, st) => (fromBuffer buf, i, st)

/-- What `handle_client` passes to the callback; `run` lists the values of `running_` it loads. -/
def handleClient (r : Nat → Int) : List Bool → Nat → List Byte → List (IPCHeader × List Byte)
  | true :: run, i, st =>
    let (m, i', st') := recvIpcMessage r i st
    if m.valid then m.contents :: handleClient r run i' st' else []
  | _, _, _ => []

variable {r : Nat → Int} {n i : Nat} {st : List Byte}

theorem recvAll_eq_some {b st' : List Byte} {i' : Nat} (h : recvAll r n i st = (some b, i', st')) :
    n ≤ st.length ∧ b = st.take n ∧ st' = st.drop n := by
  induction n using Nat.strong_induction_on generalizing i i' st b st' with
  | _ n ih =>
    rw [recvAll] at h
    split at h
    · rename_i hn
      subst hn
      obtain ⟨rfl, -, rfl⟩ : b = [] ∧ i = i' ∧ st = st' := by simpa [eq_comm] using h
      simp
    · split at h
      · simp at h
      · rename_i hn hr
        have hpos := List.length_pos_iff.2 fun hnil => hr (.inr hnil)
        have hr' : 0 < r i := by by_contra hle; exact hr (.inl (by omega))
        generalize hk : min (r i).toNat (min n st.length) = k at h
        rcases hrec : recvAll r (n - k) (i + 1) (st.drop k) with ⟨b', i'', st''⟩
        simp only [hrec, Prod.mk.injEq, Option.map_eq_some_iff] at h
        obtain ⟨⟨b', rfl, rfl⟩, -, rfl⟩ := h
        obtain ⟨h1, rfl, rfl⟩ := ih (n - k) (by omega) hrec
        rw [List.length_drop] at h1
        refine ⟨by omega, ?_, ?_⟩
        · rw [← List.take_add, Nat.add_sub_cancel' (by omega)]
        · rw [List.drop_drop, Nat.add_sub_cancel' (by omega)]

theorem exists_recvAll (hr : ∀ j, 0 < r j) (hn : n ≤ st.length) :
    ∃ i', recvAll r n i st = (some (st.take n), i', st.drop n) := by
  induction n using Nat.strong_induction_on generalizing i st with
  | _ n ih =>
    rw [recvAll]
    split
    · rename_i h
      subst h
      exact ⟨i, by simp⟩
    · rename_i h
      have hpos := hr i
      rw [dif_neg (by rintro (h1 | h1) <;> [omega; simp_all])]
      generalize hk : min (r i).toNat (min n st.length) = k
      have hdrop : n - k ≤ (st.drop k).length := by rw [List.length_drop]; omega
      obtain ⟨i', hrec⟩ := ih (n - k) (by omega) (i := i + 1) hdrop
      refine ⟨i', ?_⟩
      simp only [hrec, Option.map_some, List.drop_drop]
      rw [← List.take_add, Nat.add_sub_cancel' (by omega)]

theorem recvIpcMessage_of_valid {m : IPCMessage} {i' : Nat} {st' : List Byte}
    (h : recvIpcMessage r i st = (m, i', st')) (hv : m.valid = true) :
    64 ≤ fromLE (st.take 4) ∧ fromLE (st.take 4) ≤ kMaxMessageSize ∧
      4 + fromLE (st.take 4) ≤ st.length ∧
      m = fromBuffer ((st.drop 4).take (fromLE (st.take 4))) ∧
      st' = st.drop (4 + fromLE (st.take 4)) := by
  have hinv : ∀ {i₁ st₁}, (default, i₁, st₁) ≠ (m, i', st') := by
    intro i₁ st₁ heq
    obtain ⟨rfl, -⟩ := Prod.mk.inj heq
    cases hv
  rw [recvIpcMessage] at h
  split at h
  · exact absurd h hinv
  · rename_i b i₁ st₁ h1
    obtain ⟨hlen, rfl, rfl⟩ := recvAll_eq_some h1
    split at h
    · exact absurd h hinv
    · rename_i hsize
      split at h
      · exact absurd h hinv
      · rename_i buf i₂ st₂ h2
        obtain ⟨hlen', rfl, rfl⟩ := recvAll_eq_some h2
        simp only [Prod.mk.injEq] at h
        obtain ⟨rfl, -, rfl⟩ := h
        rw [List.length_drop] at hlen'
        exact ⟨by omega, by omega, by omega, rfl, List.drop_drop⟩

/-! ### Frames -/

/-- What a complete `send_ipc_message` appends: the length, truncated to 32 bits, and the buffer. -/
def frame (m : IPCMessage) : List Byte := bytes (BitVec.ofNat 32 m.toBuffer.length) ++ m.toBuffer

variable {m : IPCMessage} {ms : List IPCMessage} {rest part : List Byte}

@[simp] theorem length_frame (m : IPCMessage) : (frame m).length = 68 + m.data.length := by
  simp [frame]; omega

theorem length_word (v : BitVec 32) : (bytes v).length = 4 := length_bytes v

theorem drop_frame (m : IPCMessage) (l : List Byte) : (frame m ++ l).drop 4 = m.toBuffer ++ l := by
  rw [frame, List.append_assoc, List.drop_left' (length_word _)]

theorem fromLE_take_frame (m : IPCMessage) (l : List Byte) :
    fromLE ((frame m ++ l).take 4) = (64 + m.data.length) % 2 ^ 32 := by
  rw [frame, List.append_assoc, List.take_left' (length_word _), bytes, fromLE_toLE,
    BitVec.toNat_ofNat, length_toBuffer]
  exact Nat.mod_mod _ _

/-- `recv_ipc_message` at the start of a frame, of which the stream may end early, fails or reads
exactly the message of the frame. A length that was truncated is below 64 and refused. -/
theorem recvIpcMessage_frame {m' : IPCMessage} {i' : Nat} {st' : List Byte}
    (hst : st <+: frame m ++ rest) (h : recvIpcMessage r i st = (m', i', st'))
    (hv : m'.valid = true) : m'.contents = m.contents ∧ st = frame m ++ st' ∧ st' <+: rest := by
  obtain ⟨h1, -, h3, rfl, rfl⟩ := recvIpcMessage_of_valid h hv
  obtain ⟨l, hl⟩ := hst
  have hlen := m.length_data_lt
  have htotal : fromLE (st.take 4) = 64 + m.data.length := by
    rw [← List.take_append_of_le_length (show 4 ≤ st.length by omega), hl, fromLE_take_frame] at h1 ⊢
    omega
  rw [htotal] at h3 hv ⊢
  -- the whole frame has been received
  obtain ⟨st', rfl⟩ : frame m <+: st := by
    have hpre : frame m <+: frame m ++ rest := List.prefix_append _ _
    exact List.prefix_of_prefix_length_le hpre ⟨l, hl⟩ (by rw [length_frame]; omega)
  have hbuf : ((frame m ++ st').drop 4).take (64 + m.data.length) = m.toBuffer := by
    rw [drop_frame, List.take_left' m.length_toBuffer]
  have hdrop : (frame m ++ st').drop (4 + (64 + m.data.length)) = st' := by
    rw [List.drop_left' (by rw [length_frame]; omega)]
  rw [hbuf] at hv ⊢
  rw [hdrop]
  refine ⟨m.contents_of_fromBuffer hv, rfl, l, ?_⟩
  rw [List.append_assoc] at hl
  exact List.append_cancel_left hl

/-- A message that meets the receiver's limits. -/
def Deliverable (m : IPCMessage) : Prop :=
  m.header.valid = true ∧ m.header.dataLength.toNat = m.data.length ∧
    64 + m.data.length ≤ kMaxMessageSize

theorem exists_recvIpcMessage {n : Nat} (hr : ∀ j, 0 < r j) (hn : fromLE (st.take 4) = n)
    (h1 : 64 ≤ n) (h2 : n ≤ kMaxMessageSize) (h3 : 4 + n ≤ st.length) :
    ∃ i', recvIpcMessage r i st = (fromBuffer ((st.drop 4).take n), i', st.drop (4 + n)) := by
  obtain ⟨i₁, hlen⟩ := exists_recvAll (n := 4) (i := i) hr (show 4 ≤ st.length by omega)
  obtain ⟨i₂, hbuf⟩ := exists_recvAll (n := n) (i := i₁) hr
    (show n ≤ (st.drop 4).length by rw [List.length_drop]; omega)
  refine ⟨i₂, ?_⟩
  simp only [recvIpcMessage, hlen, hn]
  rw [if_neg (by omega), hbuf, List.drop_drop]

theorem exists_recvIpcMessage_frame (hm : Deliverable m) (hr : ∀ j, 0 < r j) (rest : List Byte) :
    ∃ i', recvIpcMessage r i (frame m ++ rest) = (fromBuffer m.toBuffer, i', rest) := by
  obtain ⟨-, -, hmax⟩ := hm
  have hsmall : kMaxMessageSize < 2 ^ 32 := by decide
  have htotal : fromLE ((frame m ++ rest).take 4) = 64 + m.data.length := by
    rw [fromLE_take_frame, Nat.mod_eq_of_lt (by omega)]
  obtain ⟨i', hrec⟩ := exists_recvIpcMessage (i := i) hr htotal (by omega) hmax
    (by rw [List.length_append, length_frame]; omega)
  refine ⟨i', ?_⟩
  rw [hrec, drop_frame, List.take_left' m.length_toBuffer,
    List.drop_left' (by rw [length_frame]; omega)]

/-! ### What the loop delivers -/

/-- A beginning of a frame that is not the whole frame. -/
def Partial (part : List Byte) : Prop := ∃ m, part <+: frame m ∧ part ≠ frame m

theorem partial_nil : Partial [] := by
  refine ⟨default, List.nil_prefix, fun h => ?_⟩
  have := congrArg List.length h
  rw [List.length_nil, length_frame] at this
  omega

/-- From a stream of frames of which the last may be incomplete, and of which any initial part has
arrived, the loop delivers the first messages. -/
theorem handleClient_in_order {run : List Bool} (hpart : Partial part)
    (hst : st <+: (ms.map frame).flatten ++ part) :
    handleClient r run i st <+: ms.map contents := by
  induction ms generalizing run i st with
  | nil =>
    obtain ⟨m, hp, hne⟩ := hpart
    have hst' : st <+: frame m ++ [] := by
      rw [List.append_nil]; exact List.IsPrefix.trans (by simpa using hst) hp
    rcases run with _ | ⟨_ | _, run⟩
    · exact List.nil_prefix
    · exact List.nil_prefix
    · rcases hrec : recvIpcMessage r i st with ⟨m', i', st'⟩
      simp only [handleClient, hrec]
      split
      · rename_i hv
        -- a whole frame would have to fit in a part of one
        obtain ⟨-, rfl, -⟩ := recvIpcMessage_frame hst' hrec hv
        have hle := (show frame m ++ st' <+: part by simpa using hst).length_le
        have hle' := hp.length_le
        rw [List.length_append] at hle
        exact absurd (hp.eq_of_length (by omega)) hne
      · exact List.nil_prefix
  | cons m ms ih =>
    rw [List.map_cons, List.flatten_cons, List.append_assoc] at hst
    rcases run with _ | ⟨_ | _, run⟩
    · exact List.nil_prefix
    · exact List.nil_prefix
    · rcases hrec : recvIpcMessage r i st with ⟨m', i', st'⟩
      simp only [handleClient, hrec]
      split
      · rename_i hv
        obtain ⟨hc, -, hst'⟩ := recvIpcMessage_frame hst hrec hv
        rw [List.map_cons, hc]
        exact (List.prefix_cons_inj _).2 (ih hst')
      · exact List.nil_prefix

/-- Deliverable messages are all delivered while `running_` stays true and no `::recv` fails. -/
theorem handleClient_frames {k : Nat} (hr : ∀ j, 0 < r j) (hk : ms.length ≤ k)
    (hms : ∀ m ∈ ms, Deliverable m) :
    handleClient r (List.replicate k true) i (ms.map frame).flatten = ms.map contents := by
  induction ms generalizing k i with
  | nil =>
    have hpre : handleClient r (List.replicate k true) i [] <+: [].map contents :=
      handleClient_in_order partial_nil (by simp)
    exact List.prefix_nil.1 hpre
  | cons m ms ih =>
    obtain ⟨k, rfl⟩ : ∃ k', k = k' + 1 := ⟨k - 1, by rw [List.length_cons] at hk; omega⟩
    have hm := hms m (by simp)
    obtain ⟨i', hrec⟩ := exists_recvIpcMessage_frame hm hr (i := i) (ms.map frame).flatten
    have hv := m.valid_of_fromBuffer hm.1 hm.2.1
    rw [List.map_cons, List.flatten_cons, List.replicate_succ, handleClient, hrec]
    simp only [hv, if_true]
    rw [ih (by rw [List.length_cons] at hk; omega) fun m' h => hms m' (by simp [h]),
      m.contents_of_fromBuffer hv, List.map_cons]

/-! ### Sending -/

/-- The client: the bytes the stream has taken and, during a call, the message with the number of
bytes of its frame taken so far. -/
structure State where
  stream : List Byte
  call : Option (IPCMessage × Nat)

inductive Act
  /-- `SocketClient::send` is called -/
  | send (m : IPCMessage)
  /-- `::send` returns `k` -/
  | accept (k : Nat)
  /-- `::send` returns zero or less -/
  | fail

inductive Event
  | call (m : IPCMessage)
  /-- the call returned, `sent` bytes of its frame having been taken -/
  | ret (m : IPCMessage) (ok : Bool) (sent : Nat)

/-- What the next `::send` is asked for: the rest of the length, then the rest of the buffer. -/
def request (m : IPCMessage) (sent : Nat) : Nat :=
  if sent < 4 then 4 - sent else (frame m).length - sent

def step (s : State) : Act → Option (State × List Event)
  | .send m =>
    match s.call with
    | none => some (⟨s.stream, some (m, 0)⟩, [.call m])
    | some _ => none
  | .accept k =>
    match s.call with
    | some (m, sent) =>
      if 0 < k ∧ k ≤ request m sent then
        if sent + k = (frame m).length then
          some (⟨s.stream ++ ((frame m).drop sent).take k, none⟩, [.ret m true (sent + k)])
        else some (⟨s.stream ++ ((frame m).drop sent).take k, some (m, sent + k)⟩, [])
      else none
    | none => none
  | .fail =>
    match s.call with
    | some (m, sent) => some (⟨s.stream, none⟩, [.ret m false sent])
    | none => none

def machine : Machine State Act Event := ⟨⟨[], none⟩, step⟩

/-- The messages passed to `send`. -/
def calls (tr : List Event) : List IPCMessage :=
  tr.filterMap fun | .call m => some m | .ret .. => none

/-- The messages whose `send` returned true. -/
def completed (tr : List Event) : List IPCMessage :=
  tr.filterMap fun | .ret m true _ => some m | _ => none

/-- Some `send` failed after the stream had taken a part of its frame. -/
def Torn (tr : List Event) : Prop := ∃ m sent, 0 < sent ∧ .ret m false sent ∈ tr

/-- `::send` never fails. -/
def NoFail (_ : List Event) (_ : State) : Act → Prop
  | .fail => False
  | _ => True

/-- `::send` fails only before the stream has taken a byte of the frame. -/
def CleanFail (_ : List Event) (s : State) : Act → Prop
  | .fail => ∀ c ∈ s.call, c.2 = 0
  | _ => True

instance (tr : List Event) (s : State) : DecidablePred (NoFail tr s)
  | .fail => inferInstanceAs (Decidable False)
  | .send _ | .accept _ => inferInstanceAs (Decidable True)

instance (tr : List Event) (s : State) : DecidablePred (CleanFail tr s)
  | .fail => inferInstanceAs (Decidable (∀ c ∈ s.call, c.2 = 0))
  | .send _ | .accept _ => inferInstanceAs (Decidable True)

/-- No byte of a message is taken once an earlier `send` has failed with a part of its frame taken. -/
def NotAfterTorn (tr : List Event) (s : State) : Act → Prop
  | .accept _ => ∀ m, s.call = some (m, 0) → ¬ Torn tr
  | _ => True

inductive Move (s : State) : Act → State → List Event → Prop
  | send (m : IPCMessage) (h : s.call = none) :
    Move s (.send m) ⟨s.stream, some (m, 0)⟩ [.call m]
  | last (m : IPCMessage) (sent k : Nat) (h : s.call = some (m, sent)) (hk : 0 < k)
      (hle : sent + k = (frame m).length) :
    Move s (.accept k) ⟨s.stream ++ (frame m).drop sent, none⟩ [.ret m true (sent + k)]
  | some (m : IPCMessage) (sent k : Nat) (h : s.call = some (m, sent)) (hk : 0 < k)
      (hlt : sent + k < (frame m).length) :
    Move s (.accept k) ⟨s.stream ++ ((frame m).drop sent).take k, .some (m, sent + k)⟩ []
  | fail (m : IPCMessage) (sent : Nat) (h : s.call = .some (m, sent)) :
    Move s .fail ⟨s.stream, none⟩ [.ret m false sent]

theorem move_of_step {s s' : State} {a : Act} {o : List Event} (h : step s a = some (s', o)) :
    Move s a s' o := by
  cases a with
  | send m =>
    simp only [step] at h
    split at h <;> cases h
    exact .send m ‹_›
  | accept k =>
    simp only [step] at h
    split at h
    · rename_i m sent hc
      split at h
      · rename_i hk
        have hreq : sent + k ≤ (frame m).length := by
          have hlen := length_frame m
          have hle := hk.2
          unfold request at hle
          split at hle <;> omega
        split at h <;> cases h
        · rename_i hle
          rw [List.take_of_length_le (by rw [List.length_drop]; omega)]
          exact .last m sent k hc hk.1 hle
        · exact .some m sent k hc hk.1 (by omega)
      · cases h
    · cases h
  | fail =>
    simp only [step] at h
    split at h <;> cases h
    exact .fail _ _ ‹_›

section
variable (tr o : List Event) (m : IPCMessage) (sent : Nat)

@[simp] theorem calls_append : calls (tr ++ o) = calls tr ++ calls o := List.filterMap_append
@[simp] theorem calls_nil : calls [] = [] := rfl
@[simp] theorem calls_call : calls [.call m] = [m] := rfl
@[simp] theorem calls_ret (ok : Bool) : calls [.ret m ok sent] = [] := rfl
@[simp] theorem completed_append : completed (tr ++ o) = completed tr ++ completed o :=
  List.filterMap_append
@[simp] theorem completed_nil : completed [] = [] := rfl
@[simp] theorem completed_call : completed [.call m] = [] := rfl
@[simp] theorem completed_true : completed [.ret m true sent] = [m] := rfl
@[simp] theorem completed_false : completed [.ret m false sent] = [] := rfl

end

variable {tr o : List Event} {s s' : State} {a : Act}

theorem Torn.append (h : Torn tr) (o : List Event) : Torn (tr ++ o) := by
  obtain ⟨m, sent, hpos, hmem⟩ := h
  exact ⟨m, sent, hpos, List.mem_append_left o hmem⟩

theorem partial_take {sent : Nat} (h : sent < (frame m).length) : Partial ((frame m).take sent) := by
  refine ⟨m, List.take_prefix _ _, fun heq => ?_⟩
  have := congrArg List.length heq
  rw [List.length_take] at this
  omega

/-- The bytes after the last complete frame: none, or what a failed call left behind. -/
def Rest (tr : List Event) (part : List Byte) : Prop := part = [] ∨ Torn tr ∧ Partial part

/-- The stream is the complete frames and then the beginning of one: that of the call in progress,
once it has sent a byte, and before that what a failed call left behind. -/
def Inv (tr : List Event) (s : State) : Prop :=
  ∃ part, s.stream = ((completed tr).map frame).flatten ++ part ∧
    match s.call with
    | none => Rest tr part
    | some (m, sent) =>
      sent < (frame m).length ∧ (sent = 0 → Rest tr part) ∧ (0 < sent → part = (frame m).take sent)

theorem Rest.append {part : List Byte} (h : Rest tr part) (o : List Event) : Rest (tr ++ o) part :=
  h.imp_right fun ⟨h1, h2⟩ => ⟨h1.append o, h2⟩

theorem Inv.move (h : Inv tr s) (hok : NotAfterTorn tr s a) (hm : Move s a s' o) :
    Inv (tr ++ o) s' := by
  obtain ⟨part, hst, hpc⟩ := h
  -- the bytes of the frame that the stream has taken before this step
  have htaken : ∀ {m sent k}, a = .accept k → s.call = some (m, sent) → part = (frame m).take sent := by
    intro m sent k ha hc
    simp only [hc] at hpc
    rcases Nat.eq_zero_or_pos sent with rfl | hpos
    · subst ha
      rcases hpc.2.1 rfl with rfl | ⟨htorn, -⟩
      · rfl
      · exact absurd htorn (hok m hc)
    · exact hpc.2.2 hpos
  cases hm with
  | send m hc =>
    simp only [hc] at hpc
    refine ⟨part, by simpa using hst, ?_, fun _ => hpc.append _, fun h0 => absurd h0 (Nat.lt_irrefl _)⟩
    rw [length_frame]; omega
  | last m sent k hc hk hle =>
    obtain rfl := htaken rfl hc
    refine ⟨[], ?_, .inl rfl⟩
    simp only [hst, completed_append, completed_true, List.map_append, List.map_cons, List.map_nil,
      List.flatten_append, List.flatten_cons, List.flatten_nil, List.append_nil, List.append_assoc,
      List.take_append_drop]
  | some m sent k hc hk hlt =>
    obtain rfl := htaken rfl hc
    refine ⟨(frame m).take (sent + k), ?_, hlt, fun h0 => absurd h0 (by omega), fun _ => rfl⟩
    rw [hst, List.append_nil, List.append_assoc, ← List.take_add]
  | fail m sent hc =>
    simp only [hc] at hpc
    obtain ⟨hlt, h0, hpos⟩ := hpc
    refine ⟨part, by simpa using hst, ?_⟩
    rcases Nat.eq_zero_or_pos sent with rfl | hp
    · exact (h0 rfl).append _
    · rw [hpos hp]
      exact .inr ⟨⟨m, sent, hp, by simp⟩, partial_take hlt⟩

theorem inv_init : Inv [] machine.init := ⟨[], rfl, .inl rfl⟩

theorem inv_of_runs (h : machine.Runs NotAfterTorn tr s) : Inv tr s :=
  h.invariant inv_init fun _ _ _ _ _ hi hok hs => hi.move hok (move_of_step hs)

/-- The completed calls are in relation `R` to the calls that have returned. -/
def Ordered (R : List IPCMessage → List IPCMessage → Prop) (tr : List Event) (s : State) : Prop :=
  match s.call with
  | none => R (completed tr) (calls tr)
  | some (m, _) => ∃ ms, calls tr = ms ++ [m] ∧ R (completed tr) ms

theorem Ordered.move {R : List IPCMessage → List IPCMessage → Prop} (h : Ordered R tr s)
    (hm : Move s a s' o) (happ : ∀ {l l' m}, R l l' → R (l ++ [m]) (l' ++ [m]))
    (hfail : a = .fail → ∀ {l l' m}, R l l' → R l (l' ++ [m])) : Ordered R (tr ++ o) s' := by
  unfold Ordered at h
  cases hm with
  | send m hc =>
    rw [hc] at h
    exact ⟨calls tr, by simp, by simpa using h⟩
  | last m sent k hc =>
    rw [hc] at h
    obtain ⟨ms, h1, h2⟩ := h
    simpa [Ordered, h1] using happ h2
  | some m sent k hc =>
    rw [hc] at h
    simpa [Ordered] using h
  | fail m sent hc =>
    rw [hc] at h
    obtain ⟨ms, h1, h2⟩ := h
    simpa [Ordered, h1] using hfail rfl h2

theorem sublist_of_runs {ok : List Event → State → Act → Prop} (h : machine.Runs ok tr s) :
    Ordered List.Sublist tr s := by
  have h0 : Ordered List.Sublist [] machine.init := List.Sublist.refl []
  refine h.invariant h0 fun _ _ _ _ _ hi _ hs => hi.move (move_of_step hs) ?_ ?_
  · exact fun hsub => hsub.append (List.Sublist.refl _)
  · exact fun _ _ _ _ hsub => hsub.trans (List.sublist_append_left _ _)

theorem eq_of_runs (h : machine.Runs NoFail tr s) : Ordered Eq tr s := by
  have h0 : Ordered Eq [] machine.init := rfl
  refine h.invariant h0 fun _ _ _ _ _ hi hok hs => hi.move (move_of_step hs) ?_ ?_
  · exact fun heq => by rw [heq]
  · rintro rfl
    exact hok.elim

theorem not_torn_of_cleanFail (h : machine.Runs CleanFail tr s) : ¬ Torn tr := by
  induction h with
  | init => rintro ⟨m, sent, -, hmem⟩; cases hmem
  | step _ hok hs ih =>
    rintro ⟨m, sent, hpos, hmem⟩
    rcases List.mem_append.1 hmem with hmem | hmem
    · exact ih ⟨m, sent, hpos, hmem⟩
    · cases move_of_step hs with
      | fail m' sent' hc =>
        obtain ⟨-, rfl⟩ : m = m' ∧ sent = sent' := by simpa using hmem
        exact absurd (hok _ hc) (Nat.ne_of_gt hpos)
      | send | last | some => simp at hmem

theorem notAfterTorn_of_cleanFail (h : machine.Runs CleanFail tr s) :
    machine.Runs NotAfterTorn tr s := by
  induction h with
  | init => exact .init
  | @step tr s s' a o hr hok hs ih =>
    refine ih.step ?_ hs
    cases a with
    | accept k => exact fun _ _ => not_torn_of_cleanFail hr
    | send | fail => trivial

theorem cleanFail_of_noFail (h : machine.Runs NoFail tr s) : machine.Runs CleanFail tr s := by
  refine h.mono fun _ _ a _ _ hok _ => ?_
  cases a with
  | fail => exact hok.elim
  | send | accept => trivial

theorem Inv.stream_eq {s : State} (h : Inv tr s) :
    ∃ part, s.stream = ((completed tr).map frame).flatten ++ part ∧ Partial part := by
  have hrest : ∀ {part}, Rest tr part → Partial part := by
    rintro part (rfl | ⟨-, h⟩)
    · exact partial_nil
    · exact h
  obtain ⟨part, hst, hpc⟩ := h
  refine ⟨part, hst, ?_⟩
  rcases hc : s.call with _ | ⟨m, sent⟩ <;> simp only [hc] at hpc
  · exact hrest hpc
  · rcases Nat.eq_zero_or_pos sent with rfl | hp
    · exact hrest (hpc.2.1 rfl)
    · rw [hpc.2.2 hp]
      exact partial_take hpc.1

/-- When `::send` never fails, whatever the sizes of the pieces in which the bytes are taken and
returned: the loop of `handle_client` on what has arrived so far delivers a prefix of the messages
sent; and once all are sent, all are delivered if each has a valid header that states its payload's
length and fits the limit, `running_` stays true and `::recv` does not fail. -/
theorem framing_delivers_in_order (tr : List Event) (s : State) (h : machine.Runs NoFail tr s) :
    (∀ r run st, st <+: s.stream → handleClient r run 0 st <+: (calls tr).map contents) ∧
    (s.call = none → (∀ m ∈ calls tr, Deliverable m) → ∀ r k, (∀ j, 0 < r j) →
      (calls tr).length ≤ k →
        handleClient r (List.replicate k true) 0 s.stream = (calls tr).map contents) := by
  have hclean := cleanFail_of_noFail h
  have hi := inv_of_runs (notAfterTorn_of_cleanFail hclean)
  have ho := eq_of_runs h
  unfold Ordered at ho
  refine ⟨fun r run st hst => ?_, fun hc hd r k hr hk => ?_⟩
  · obtain ⟨part, hstream, hpart⟩ := hi.stream_eq
    rw [hstream] at hst
    refine (handleClient_in_order hpart hst).trans ?_
    rcases hc : s.call with _ | ⟨m, sent⟩ <;> simp only [hc] at ho
    · simp [ho]
    · obtain ⟨ms, h1, h2⟩ := ho
      rw [h1, h2, List.map_append]
      exact List.prefix_append _ _
  · simp only [hc] at ho
    obtain ⟨part, hstream, hrest⟩ := hi
    simp only [hc] at hrest
    obtain rfl := hrest.resolve_right fun h1 => not_torn_of_cleanFail hclean h1.1
    rw [hstream, List.append_nil, ho]
    exact handleClient_frames hr hk hd

/-- Two messages, their frames taken in pieces; the pieces offered to `::recv` go past the end of the
first length and of the first frame. A stream that is cut in the second length gives no more than the
first message. -/
theorem framing_delivers_in_order_two :
    ∃ (tr : List Event) (s : State) (m m' : IPCMessage), machine.Runs NoFail tr s ∧ calls tr = [m, m'] ∧
      s.stream = frame m ++ frame m' ∧
      handleClient (fun _ => 1) [true, true] 0 (s.stream.take 72) <+: [m.contents, m'.contents] ∧
      handleClient (fun j => if j % 2 = 0 then 3 else 50) [true, true] 0 s.stream =
        [m.contents, m'.contents] := by
  let m := IPCMessage.new .default (some fun _ => 7) 1
  let m' := IPCMessage.new .default (some fun _ => 9) 2
  let g (s : State) (a : Act) : Bool := decide (NoFail [] s a)
  let acts : List Act :=
    [.send m, .accept 1, .accept 3, .accept 65, .send m', .accept 2, .accept 2, .accept 30, .accept 36]
  have hexec : ((machine.restrict g).exec machine.init acts).map
      (fun x => (x.1.call.isNone, x.1.stream, calls x.2)) =
        some (true, frame m ++ frame m', [m, m']) := by decide +kernel
  obtain ⟨tr, s, hr, hend⟩ := Machine.Runs.exists_of_restrict NoFail
    (fun _ _ _ h => of_decide_eq_true h) hexec
  simp only [Prod.mk.injEq, Option.isNone_iff_eq_none] at hend
  obtain ⟨hcall, hstream, hcalls⟩ := hend
  have hd : ∀ m ∈ calls tr, Deliverable m := by
    rw [hcalls]
    simp only [List.forall_mem_cons, Deliverable]
    decide +kernel
  obtain ⟨hcut, hall⟩ := framing_delivers_in_order tr s hr
  refine ⟨tr, s, m, m', hr, hcalls, hstream, ?_, ?_⟩
  · have hfirst := hcut (fun _ => 1) [true, true] (s.stream.take 72) (List.take_prefix _ _)
    rw [hcalls] at hfirst
    exact hfirst
  · have hboth := hall hcall hd (fun j => if j % 2 = 0 then 3 else 50) 2
      (fun j => by split <;> decide) (by rw [hcalls]; decide)
    rw [hcalls] at hboth
    exact hboth

/-- In every run in which the stream takes no byte of a message once an earlier `send` has failed
with a part of its frame taken, the loop of `handle_client` delivers a subsequence of the messages
passed to `send`, each as it was passed. -/
theorem delivers_subsequence (tr : List Event) (s : State) (h : machine.Runs NotAfterTorn tr s)
    (r : Nat → Int) (run : List Bool) (st : List Byte) (hst : st <+: s.stream) :
    (handleClient r run 0 st).Sublist ((calls tr).map contents) := by
  obtain ⟨part, hstream, hpart⟩ := (inv_of_runs h).stream_eq
  rw [hstream] at hst
  refine (handleClient_in_order hpart hst).sublist.trans (List.Sublist.map _ ?_)
  have ho := sublist_of_runs h
  unfold Ordered at ho
  rcases hc : s.call with _ | ⟨m, sent⟩ <;> simp only [hc] at ho
  · exact ho
  · obtain ⟨ms, h1, h2⟩ := ho
    rw [h1]
    exact h2.trans (List.sublist_append_left _ _)

/-- A call that fails before its first byte is taken, followed by one that succeeds. -/
theorem delivers_subsequence_retry :
    ∃ (tr : List Event) (s : State) (m : IPCMessage), machine.Runs NotAfterTorn tr s ∧
      calls tr = [default, m] ∧ s.stream = frame m ∧
      (handleClient (fun _ => 5) [true, true] 0 s.stream).Sublist [default.contents, m.contents] := by
  let m := IPCMessage.new .default (some fun _ => 7) 1
  let g (s : State) (a : Act) : Bool := decide (CleanFail [] s a)
  let acts : List Act := [.send default, .fail, .send m, .accept 4, .accept 65]
  have hexec : ((machine.restrict g).exec machine.init acts).map (fun x => (x.1.stream, calls x.2)) =
      some (frame m, [default, m]) := by decide +kernel
  obtain ⟨tr, s, hclean, hend⟩ := Machine.Runs.exists_of_restrict CleanFail
    (fun _ _ _ h => of_decide_eq_true h) hexec
  simp only [Prod.mk.injEq] at hend
  obtain ⟨hstream, hcalls⟩ := hend
  have hr : machine.Runs NotAfterTorn tr s := notAfterTorn_of_cleanFail hclean
  refine ⟨tr, s, m, hr, hcalls, hstream, ?_⟩
  have hsub := delivers_subsequence tr s hr (fun _ => 5) [true, true] s.stream List.prefix_rfl
  rw [hcalls] at hsub
  exact hsub

/-- The first call fails with 68 of its 69 bytes taken; the receiver completes its message with the
first byte of the next frame. -/
theorem misframed_after_torn :
    ∃ (tr : List Event) (s : State) (r : Nat → Int) (run : List Bool), machine.Runs Machine.free tr s ∧
      ¬ (handleClient r run 0 s.stream).Sublist ((calls tr).map contents) := by
  let m := IPCMessage.new .default (some fun _ => 7) 1
  let acts : List Act :=
    [.send m, .accept 4, .accept 64, .fail, .send default, .accept 4, .accept 64]
  let st : List Byte := (frame m).take 68 ++ frame default
  have hexec : (machine.exec machine.init acts).map (fun x => (x.1.stream, calls x.2)) =
      some (st, [m, default]) := by decide +kernel
  obtain ⟨tr, s, hr, hend⟩ := Machine.Runs.exists_of_exec hexec
  simp only [Prod.mk.injEq] at hend
  obtain ⟨hstream, hcalls⟩ := hend
  obtain ⟨i', hrec⟩ := exists_recvIpcMessage (i := 0) (r := fun _ => 1) (fun _ => by decide)
    (show fromLE (st.take 4) = 65 by decide +kernel) (by decide) (by decide) (by decide +kernel)
  refine ⟨tr, s, fun _ => 1, [true], hr, ?_⟩
  have hvalid : (fromBuffer ((st.drop 4).take 65)).valid = true := by decide +kernel
  have hnot : (fromBuffer ((st.drop 4).take 65)).contents ∉ [m, default].map contents := by
    decide +kernel
  rw [hstream, hcalls, handleClient, hrec]
  simp only [hvalid, if_true]
  exact fun hsub => hnot (hsub.subset (by simp))

end Lwipc.SocketTransport
