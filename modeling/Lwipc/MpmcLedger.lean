import Lwipc.MpmcFifo

/-!
# What the calls of `MpmcRingBuffer` have done

`Inv` says what a slot holds; it does not say whose turn it is. A call that has claimed a position is
copying, about to store, or has stored, and once it has stored the sequence of the slot shows it as long
as the position is current. `Ledger` records this for both sides, and that a call sent back by a
sequence ahead of its position is behind the counter.

The inversion `Move` says once what a step does; the invariant is preserved case by case.
-/

namespace Lwipc.MpmcRingBuffer

variable {ι α : Type}

/-! ### Steps -/

/-- A step that changes nothing but where the call stands. -/
inductive Local (cap : Capacity) (s : State ι α) : Call α → Call α → Prop
  | callPush (item : α) : Local cap s .idle (.push item .loadPos)
  | callPop : Local cap s .idle (.pop .loadPos)
  | callSize : Local cap s .idle (.size .loadWrite)
  | pushStart (item : α) : Local cap s (.push item .loadPos) (.push item (.loadSeq s.writePos))
  | pushReload (item : α) (pos : Nat) :
    Local cap s (.push item (.reload pos)) (.push item (.loadSeq s.writePos))
  | pushLost (item : α) (pos : Nat) :
    Local cap s (.push item (.cas pos)) (.push item (.loadSeq s.writePos))
  | pushFree (item : α) (pos : Nat) (h : diff (seqAt cap s pos) pos = 0) :
    Local cap s (.push item (.loadSeq pos)) (.push item (.cas pos))
  | pushFull (item : α) (pos : Nat) (h : diff (seqAt cap s pos) pos < 0) :
    Local cap s (.push item (.loadSeq pos)) (.push item (.done false))
  | pushAhead (item : α) (pos : Nat) (h : 0 < diff (seqAt cap s pos) pos) :
    Local cap s (.push item (.loadSeq pos)) (.push item (.reload pos))
  | popStart : Local cap s (.pop .loadPos) (.pop (.loadSeq s.readPos))
  | popReload (pos : Nat) : Local cap s (.pop (.reload pos)) (.pop (.loadSeq s.readPos))
  | popLost (pos : Nat) : Local cap s (.pop (.cas pos)) (.pop (.loadSeq s.readPos))
  | popReady (pos : Nat) (h : diff (seqAt cap s pos) (u64 (pos + 1)) = 0) :
    Local cap s (.pop (.loadSeq pos)) (.pop (.cas pos))
  | popEmpty (pos : Nat) (h : diff (seqAt cap s pos) (u64 (pos + 1)) < 0) :
    Local cap s (.pop (.loadSeq pos)) (.pop (.done none))
  | popAhead (pos : Nat) (h : 0 < diff (seqAt cap s pos) (u64 (pos + 1))) :
    Local cap s (.pop (.loadSeq pos)) (.pop (.reload pos))
  | popCopy (pos : Nat) : Local cap s (.pop (.copy pos)) (.pop (.store pos (s.slots (cap.slot pos)).data))
  | sizeWrite : Local cap s (.size .loadWrite) (.size (.loadRead s.writePos))
  | sizeRead (w : Nat) :
    Local cap s (.size (.loadRead w)) (.size (.done (if w ≥ s.readPos then w - s.readPos else 0)))

/-- The call that an action belongs to. -/
def Act.call : Act ι α → ι
  | .callPush i _ | .callPop i | .callSize i | .run i | .spurious i => i

variable [DecidableEq ι]

/-- What a step of call `i` does. -/
inductive Move (cap : Capacity) (s : State ι α) (i : ι) : State ι α → List (Event ι α) → Prop
  | here {c : Call α} (h : Local cap s (s.calls i) c) : Move cap s i (s.setCall i c) []
  | claimPush {item : α} (h : s.calls i = .push item (.cas s.writePos)) :
    Move cap s i (State.setCall { s with writePos := u64 (s.writePos + 1) } i (.push item (.copy s.writePos)))
      [.pushed i s.writePos item]
  | write {item : α} {pos : Nat} (h : s.calls i = .push item (.copy pos)) :
    Move cap s i ((s.setSlot (cap.slot pos) fun x => { x with data := item }).setCall i
      (.push item (.store pos))) []
  | publish {item : α} {pos : Nat} (h : s.calls i = .push item (.store pos)) :
    Move cap s i ((s.setSlot (cap.slot pos) fun x => { x with sequence := u64 (pos + 1) }).setCall i
      (.push item (.done true))) []
  | claimPop (h : s.calls i = .pop (.cas s.readPos)) :
    Move cap s i (State.setCall { s with readPos := u64 (s.readPos + 1) } i (.pop (.copy s.readPos)))
      [.popped i s.readPos]
  | release {pos : Nat} {out : α} (h : s.calls i = .pop (.store pos out)) :
    Move cap s i ((s.setSlot (cap.slot pos) fun x => { x with sequence := u64 (pos + cap.val) }).setCall i
      (.pop (.done (some out)))) []

variable {cap : Capacity} {tr : List (Event ι α)} {s s' : State ι α} {o : List (Event ι α)} {i : ι}

theorem Move.of_pushStep {item : α} {pc : PushPc} (hi : s.calls i = .push item pc)
    (hs : pushStep cap s i item pc = some (s', o)) : Move cap s i s' o := by
  cases pc with
  | loadPos =>
    obtain ⟨rfl, rfl⟩ := Prod.mk.inj (Option.some.inj hs)
    exact .here (hi ▸ .pushStart item)
  | reload pos =>
    obtain ⟨rfl, rfl⟩ := Prod.mk.inj (Option.some.inj hs)
    exact .here (hi ▸ .pushReload item pos)
  | loadSeq pos =>
    simp only [pushStep] at hs
    split_ifs at hs with h0 hneg <;> obtain ⟨rfl, rfl⟩ := Prod.mk.inj (Option.some.inj hs)
    · exact .here (hi ▸ .pushFree item pos h0)
    · exact .here (hi ▸ .pushFull item pos hneg)
    · exact .here (hi ▸ .pushAhead item pos (lt_of_le_of_ne (not_lt.1 hneg) (Ne.symm h0)))
  | cas pos =>
    simp only [pushStep] at hs
    split_ifs at hs with hw <;> obtain ⟨rfl, rfl⟩ := Prod.mk.inj (Option.some.inj hs)
    · subst hw
      exact .claimPush hi
    · exact .here (hi ▸ .pushLost item pos)
  | copy pos =>
    obtain ⟨rfl, rfl⟩ := Prod.mk.inj (Option.some.inj hs)
    exact .write hi
  | store pos =>
    obtain ⟨rfl, rfl⟩ := Prod.mk.inj (Option.some.inj hs)
    exact .publish hi
  | done => cases hs

theorem Move.of_popStep {pc : PopPc α} (hi : s.calls i = .pop pc)
    (hs : popStep cap s i pc = some (s', o)) : Move cap s i s' o := by
  cases pc with
  | loadPos =>
    obtain ⟨rfl, rfl⟩ := Prod.mk.inj (Option.some.inj hs)
    exact .here (hi ▸ .popStart)
  | reload pos =>
    obtain ⟨rfl, rfl⟩ := Prod.mk.inj (Option.some.inj hs)
    exact .here (hi ▸ .popReload pos)
  | loadSeq pos =>
    simp only [popStep] at hs
    split_ifs at hs with h0 hneg <;> obtain ⟨rfl, rfl⟩ := Prod.mk.inj (Option.some.inj hs)
    · exact .here (hi ▸ .popReady pos h0)
    · exact .here (hi ▸ .popEmpty pos hneg)
    · exact .here (hi ▸ .popAhead pos (lt_of_le_of_ne (not_lt.1 hneg) (Ne.symm h0)))
  | cas pos =>
    simp only [popStep] at hs
    split_ifs at hs with hr <;> obtain ⟨rfl, rfl⟩ := Prod.mk.inj (Option.some.inj hs)
    · subst hr
      exact .claimPop hi
    · exact .here (hi ▸ .popLost pos)
  | copy pos =>
    obtain ⟨rfl, rfl⟩ := Prod.mk.inj (Option.some.inj hs)
    exact .here (hi ▸ .popCopy pos)
  | store pos out =>
    obtain ⟨rfl, rfl⟩ := Prod.mk.inj (Option.some.inj hs)
    exact .release hi
  | done => cases hs

theorem Move.of_step {a : Act ι α} (hs : step cap s a = some (s', o)) : Move cap s a.call s' o := by
  cases a with
  | callPush i item =>
    simp only [step] at hs
    split at hs
    · rename_i hi
      obtain ⟨rfl, rfl⟩ := Prod.mk.inj (Option.some.inj hs)
      exact .here (hi.symm ▸ .callPush item)
    · cases hs
  | callPop i =>
    simp only [step] at hs
    split at hs
    · rename_i hi
      obtain ⟨rfl, rfl⟩ := Prod.mk.inj (Option.some.inj hs)
      exact .here (hi.symm ▸ .callPop)
    · cases hs
  | callSize i =>
    simp only [step] at hs
    split at hs
    · rename_i hi
      obtain ⟨rfl, rfl⟩ := Prod.mk.inj (Option.some.inj hs)
      exact .here (hi.symm ▸ .callSize)
    · cases hs
  | run i =>
    simp only [step] at hs
    split at hs
    · cases hs
    · exact .of_pushStep ‹_› hs
    · exact .of_popStep ‹_› hs
    · rename_i pc hi
      cases pc with
      | loadWrite =>
        obtain ⟨rfl, rfl⟩ := Prod.mk.inj (Option.some.inj hs)
        exact .here (hi.symm ▸ .sizeWrite)
      | loadRead w =>
        obtain ⟨rfl, rfl⟩ := Prod.mk.inj (Option.some.inj hs)
        exact .here (hi.symm ▸ .sizeRead w)
      | done => cases hs
  | spurious i =>
    simp only [step] at hs
    split at hs
    · rename_i item pos hi
      obtain ⟨rfl, rfl⟩ := Prod.mk.inj (Option.some.inj hs)
      exact .here (hi.symm ▸ .pushLost item pos)
    · rename_i pos hi
      obtain ⟨rfl, rfl⟩ := Prod.mk.inj (Option.some.inj hs)
      exact .here (hi.symm ▸ .popLost pos)
    · cases hs

theorem Move.calls_of_ne {j : ι} (h : Move cap s i s' o) (hj : j ≠ i) : s'.calls j = s.calls j := by
  cases h <;> exact Function.update_of_ne hj _ _

/-! ### The sequences that a call can read -/

section
omit [DecidableEq ι]
variable {pos : Nat}

/-- A position that has been claimed, perhaps laps ago: the sequence of its slot is not behind it. -/
theorem Shared.seq_of_behind (h : Shared cap tr s) (hlt : pos < s.writePos) :
    ∃ p, pos ≤ p ∧ cap.slot p = cap.slot pos ∧ cap.Current s.writePos p ∧ p ≤ seqAt cap s pos ∧
      seqAt cap s pos ≤ p + cap.val := by
  have hcap := cap.ge_two
  obtain ⟨p, hle, hsl, hcur⟩ := @Capacity.exists_current cap pos s.writePos hlt
  refine ⟨p, hle, hsl, hcur, ?_⟩
  rw [← seqAt_congr hsl]
  rcases h.slot p hcur with ⟨h1, -⟩ | ⟨h1, -⟩ | ⟨h1, -⟩ <;> omega

/-- The next position to claim: its slot is free, or holds the position a lap behind. -/
theorem Shared.seq_of_next (h : Shared cap tr s) : seqAt cap s s.writePos = s.writePos ∨
    (cap.val ≤ s.writePos ∧ seqAt cap s s.writePos = seqAt cap s (s.writePos - cap.val) ∧
      s.writePos - cap.val ≤ seqAt cap s s.writePos ∧ seqAt cap s s.writePos < s.writePos) := by
  have hcap := cap.ge_two
  rcases Nat.lt_or_ge s.writePos cap.val with hlt | hge
  · exact .inl (h.fresh _ hlt (Nat.le_refl _))
  · have hcur : cap.Current s.writePos (s.writePos - cap.val) := ⟨by omega, by omega⟩
    have hsl := seqAt_congr (s := s) (cap.slot_sub hge)
    rcases h.slot _ hcur with ⟨h1, -⟩ | ⟨h1, -⟩ | ⟨h1, -⟩ <;> rw [hsl] at h1
    · exact .inr ⟨hge, hsl.symm, by omega, by omega⟩
    · exact .inr ⟨hge, hsl.symm, by omega, by omega⟩
    · exact .inl (by omega)

theorem Shared.seq_le_next (h : Shared cap tr s) : seqAt cap s s.writePos ≤ s.writePos := by
  rcases h.seq_of_next with heq | ⟨-, -, -, hlt⟩
  · exact Nat.le_of_eq heq
  · exact Nat.le_of_lt hlt

theorem Shared.diff_next (h : Shared cap tr s) (hb : (pushes tr).length < 2 ^ 63) :
    diff (seqAt cap s s.writePos) s.writePos = (seqAt cap s s.writePos : Int) - s.writePos := by
  have := h.seq_le_next
  have := (h.lt_of_bound hb).1
  exact s64_sub_of_lt (by omega) (by omega)

/-- A push is sent back only when the counter has moved on. -/
theorem Shared.lt_of_pushAhead (h : Shared cap tr s) (hb : (pushes tr).length < 2 ^ 63)
    (hle : pos ≤ s.writePos) (hd : 0 < diff (seqAt cap s pos) pos) : pos < s.writePos := by
  rcases Nat.lt_or_eq_of_le hle with hlt | rfl
  · exact hlt
  · have hseq := h.seq_le_next
    rw [h.diff_next hb] at hd
    omega

/-- A position whose pop has been claimed: its push has published it. -/
theorem Shared.seq_of_popped (h : Shared cap tr s) (hlt : pos < s.readPos) :
    ∃ p, pos ≤ p ∧ cap.slot p = cap.slot pos ∧ p < s.writePos ∧ pos + 1 ≤ seqAt cap s pos ∧
      seqAt cap s pos ≤ p + cap.val := by
  have hcap := cap.ge_two
  obtain ⟨p, hle, hsl, hcur, hseq, hseq'⟩ := h.seq_of_behind (Nat.lt_of_lt_of_le hlt h.read_le)
  refine ⟨p, hle, hsl, hcur.1, ?_, hseq'⟩
  rcases Nat.lt_or_eq_of_le hle with hlt' | rfl
  · omega
  · rcases h.slot pos hcur with ⟨-, h1⟩ | ⟨h1, -⟩ | ⟨h1, -⟩ <;> omega

/-- The next position to read is at most published. -/
theorem Shared.seq_le_read (h : Shared cap tr s) :
    seqAt cap s s.readPos ≤ s.readPos + 1 ∧ s.readPos ≤ seqAt cap s s.readPos + cap.val := by
  have hcap := cap.ge_two
  rcases Nat.lt_or_eq_of_le h.read_le with hlt | heq
  · rcases h.slot s.readPos ⟨hlt, h.write_le⟩ with ⟨h1, -⟩ | ⟨h1, -⟩ | ⟨-, h1⟩ <;> omega
  · rw [heq]
    rcases h.seq_of_next with h1 | ⟨-, -, h1, h2⟩ <;> omega

theorem Shared.diff_read (h : Shared cap tr s) (hb : (pushes tr).length < 2 ^ 63) :
    diff (seqAt cap s s.readPos) (u64 (s.readPos + 1)) = (seqAt cap s s.readPos : Int) - (s.readPos + 1) := by
  have hseq := h.seq_le_read.1
  have hlt := (h.lt_of_bound hb).2
  rw [u64_of_lt (by omega), diff, s64_sub_of_lt (by omega) (by omega)]
  rfl

/-- A pop is sent back only when the counter has moved on. -/
theorem Shared.lt_of_popAhead (h : Shared cap tr s) (hb : (pushes tr).length < 2 ^ 63)
    (hle : pos ≤ s.readPos) (hd : 0 < diff (seqAt cap s pos) (u64 (pos + 1))) : pos < s.readPos := by
  rcases Nat.lt_or_eq_of_le hle with hlt | rfl
  · exact hlt
  · have hseq := h.seq_le_read.1
    rw [h.diff_read hb] at hd
    omega

end

/-! ### The invariant -/

/-- Where the calls that claimed a position stand, and what their last stores left. -/
structure Ledger (cap : Capacity) (tr : List (Event ι α)) (s : State ι α) : Prop where
  pushed : ∀ i p item, Event.pushed i p item ∈ tr → p < s.writePos ∧
    (s.calls i = .push item (.copy p) ∨ s.calls i = .push item (.store p) ∨
      (s.calls i = .push item (.done true) ∧ (cap.Current s.writePos p → seqAt cap s p ≠ p)))
  popped : ∀ i p, Event.popped i p ∈ tr → p < s.readPos ∧
    (s.calls i = .pop (.copy p) ∨ (∃ out, s.calls i = .pop (.store p out)) ∨
      ((∃ out, s.calls i = .pop (.done (some out))) ∧
        (cap.Current s.writePos p → seqAt cap s p = p + cap.val)))
  pushBehind : ∀ i item pos, s.calls i = .push item (.reload pos) → pos < s.writePos
  popBehind : ∀ i pos, s.calls i = .pop (.reload pos) → pos < s.readPos

omit [DecidableEq ι] in
theorem ledger_init [Inhabited α] : Ledger cap [] (init : State ι α) := by
  constructor <;> intros <;> simp_all [init]

theorem Move.counters (h : Move cap s i s' o) (hw : s.writePos < 2 ^ 63) (hr : s.readPos < 2 ^ 63) :
    s.writePos ≤ s'.writePos ∧ s.readPos ≤ s'.readPos := by
  have hu {n : Nat} (hn : n < 2 ^ 63) : n ≤ u64 (n + 1) := by
    rw [u64_of_lt (by omega)]
    omega
  cases h
  case claimPush => exact ⟨hu hw, Nat.le_refl _⟩
  case claimPop => exact ⟨Nat.le_refl _, hu hr⟩
  all_goals exact ⟨Nat.le_refl _, Nat.le_refl _⟩

/-- The sequence of a current position changes only by the final stores of its own push and pop. -/
theorem Move.seq {p : Nat} (h : Move cap s i s' o) (hinv : Inv cap tr s)
    (hb : (pushes tr).length < 2 ^ 63) (hp : cap.Current s.writePos p) :
    seqAt cap s' p = seqAt cap s p ∨
    ((∃ item, s.calls i = .push item (.store p)) ∧ seqAt cap s p = p ∧ seqAt cap s' p = p + 1) ∨
    ((∃ out, s.calls i = .pop (.store p out)) ∧ seqAt cap s' p = p + cap.val) := by
  have hok := hinv.call i
  have hlt := (hinv.lt_of_bound hb).1
  have hcap := cap.le
  have hset (pos : Nat) (f : Slot α → Slot α) (c : Call α) (hne : cap.slot p ≠ cap.slot pos) :
      seqAt cap ((s.setSlot (cap.slot pos) f).setCall i c) p = seqAt cap s p := by
    simp [seqAt, Function.update_of_ne hne]
  cases h
  case publish item pos h =>
    rw [h] at hok
    by_cases hsl : cap.slot p = cap.slot pos
    · obtain rfl := hp.eq hok.1 hsl
      refine .inr (.inl ⟨⟨item, h⟩, hok.2.1, ?_⟩)
      have := hp.1
      simp [seqAt, u64_of_lt (show p + 1 < 2 ^ 64 by omega)]
    · exact .inl (hset _ _ _ hsl)
  case release pos out h =>
    rw [h] at hok
    by_cases hsl : cap.slot p = cap.slot pos
    · obtain rfl := hp.eq hok.1 hsl
      refine .inr (.inr ⟨⟨out, h⟩, ?_⟩)
      have := hp.1
      simp [seqAt, u64_of_lt (show p + cap.val < 2 ^ 64 by omega)]
    · exact .inl (hset _ _ _ hsl)
  case write item pos h =>
    by_cases hsl : cap.slot p = cap.slot pos
    · exact .inl (by simp [seqAt, hsl])
    · exact .inl (hset _ _ _ hsl)
  all_goals exact .inl rfl

/-- The call that claimed a position moves on through its copy and its store. -/
theorem Move.own_push {p : Nat} {item : α} (h : Move cap s i s' o)
    (hc : s.calls i = .push item (.copy p) ∨ s.calls i = .push item (.store p) ∨
      s.calls i = .push item (.done true)) :
    (s.calls i = .push item (.copy p) ∧ s'.calls i = .push item (.store p)) ∨
    (s.calls i = .push item (.store p) ∧ s'.calls i = .push item (.done true)) := by
  cases h
  case here c h => rcases hc with hc | hc | hc <;> rw [hc] at h <;> cases h
  case write item' pos h =>
    rcases hc with hc | hc | hc <;> rw [hc] at h <;> cases h
    exact .inl ⟨hc, Function.update_self i _ _⟩
  case publish item' pos h =>
    rcases hc with hc | hc | hc <;> rw [hc] at h <;> cases h
    exact .inr ⟨hc, Function.update_self i _ _⟩
  all_goals
    rename_i h
    rcases hc with hc | hc | hc <;> rw [hc] at h <;> cases h

theorem Move.own_pop {p : Nat} (h : Move cap s i s' o)
    (hc : s.calls i = .pop (.copy p) ∨ (∃ out, s.calls i = .pop (.store p out)) ∨
      ∃ out, s.calls i = .pop (.done (some out))) :
    (s.calls i = .pop (.copy p) ∧ ∃ out, s'.calls i = .pop (.store p out)) ∨
    ((∃ out, s.calls i = .pop (.store p out)) ∧ ∃ out, s'.calls i = .pop (.done (some out))) := by
  cases h
  case here c h =>
    rcases hc with hc | ⟨out, hc⟩ | ⟨out, hc⟩ <;> rw [hc] at h <;> cases h
    exact .inl ⟨hc, _, Function.update_self i _ _⟩
  case release pos out' h =>
    rcases hc with hc | ⟨out, hc⟩ | ⟨out, hc⟩ <;> rw [hc] at h <;> cases h
    exact .inr ⟨⟨_, hc⟩, _, Function.update_self i _ _⟩
  all_goals
    rename_i h
    rcases hc with hc | ⟨out, hc⟩ | ⟨out, hc⟩ <;> rw [hc] at h <;> cases h

theorem Ledger.pushed_move {j : ι} {p : Nat} {item : α} (hl : Ledger cap tr s) (hinv : Inv cap tr s)
    (hb : (pushes tr).length < 2 ^ 63) (hm : Move cap s i s' o) (he : Event.pushed j p item ∈ tr) :
    p < s'.writePos ∧
    (s'.calls j = .push item (.copy p) ∨ s'.calls j = .push item (.store p) ∨
      (s'.calls j = .push item (.done true) ∧ (cap.Current s'.writePos p → seqAt cap s' p ≠ p))) := by
  have hcap := cap.pos
  obtain ⟨hp, hold⟩ := hl.pushed j p item he
  have hlt := hinv.lt_of_bound hb
  have hw := (hm.counters hlt.1 hlt.2).1
  have hcur (h : cap.Current s'.writePos p) : cap.Current s.writePos p := ⟨hp, Nat.le_trans hw h.2⟩
  refine ⟨Nat.lt_of_lt_of_le hp hw, ?_⟩
  by_cases hj : j = i
  · subst hj
    rcases hm.own_push (hold.imp_right (Or.imp_right And.left)) with ⟨-, h'⟩ | ⟨hc, h'⟩
    · exact .inr (.inl h')
    · refine .inr (.inr ⟨h', fun h => ?_⟩)
      have hnew : seqAt cap s' p = p + 1 := by
        cases hm
        case publish item' pos hc' =>
          rw [hc] at hc'
          cases hc'
          simp [seqAt, u64_of_lt (show p + 1 < 2 ^ 64 by omega)]
        case here c h1 => rw [hc] at h1; cases h1
        all_goals rename_i h1; rw [hc] at h1; cases h1
      omega
  · rw [hm.calls_of_ne hj]
    refine hold.imp_right (Or.imp_right (And.imp_right fun hseq h => ?_))
    have := hseq (hcur h)
    rcases hm.seq hinv hb (hcur h) with h1 | ⟨-, -, h1⟩ | ⟨-, h1⟩ <;> omega

theorem Ledger.popped_move {j : ι} {p : Nat} (hl : Ledger cap tr s) (hinv : Inv cap tr s)
    (hb : (pushes tr).length < 2 ^ 63) (hm : Move cap s i s' o) (he : Event.popped j p ∈ tr) :
    p < s'.readPos ∧
    (s'.calls j = .pop (.copy p) ∨ (∃ out, s'.calls j = .pop (.store p out)) ∨
      ((∃ out, s'.calls j = .pop (.done (some out))) ∧
        (cap.Current s'.writePos p → seqAt cap s' p = p + cap.val))) := by
  have hcap := cap.pos
  obtain ⟨hp, hold⟩ := hl.popped j p he
  have hlt := hinv.lt_of_bound hb
  obtain ⟨hw, hr⟩ := hm.counters hlt.1 hlt.2
  have hcur (h : cap.Current s'.writePos p) : cap.Current s.writePos p :=
    ⟨Nat.lt_of_lt_of_le hp hinv.read_le, Nat.le_trans hw h.2⟩
  refine ⟨Nat.lt_of_lt_of_le hp hr, ?_⟩
  by_cases hj : j = i
  · subst hj
    rcases hm.own_pop (hold.imp_right (Or.imp_right And.left)) with ⟨-, h'⟩ | ⟨⟨out, hc⟩, h'⟩
    · exact .inr (.inl h')
    · refine .inr (.inr ⟨h', fun h => ?_⟩)
      have hle := cap.le
      cases hm
      case release pos out' hc' =>
        rw [hc] at hc'
        cases hc'
        simp [seqAt, u64_of_lt (show p + cap.val < 2 ^ 64 by omega)]
      case here c h1 => rw [hc] at h1; cases h1
      all_goals rename_i h1; rw [hc] at h1; cases h1
  · rw [hm.calls_of_ne hj]
    refine hold.imp_right (Or.imp_right (And.imp_right fun hseq h => ?_))
    have := hseq (hcur h)
    rcases hm.seq hinv hb (hcur h) with h1 | ⟨-, h1, -⟩ | ⟨-, h1⟩ <;> omega

theorem Ledger.move (hl : Ledger cap tr s) (hinv : Inv cap tr s) (hb : (pushes tr).length < 2 ^ 63)
    (hm : Move cap s i s' o) : Ledger cap (tr ++ o) s' := by
  have hlt := hinv.lt_of_bound hb
  obtain ⟨hw, hr⟩ := hm.counters hlt.1 hlt.2
  have hok := hinv.call i
  refine ⟨?_, ?_, ?_, ?_⟩
  · intro j p item he
    rcases List.mem_append.1 he with he | he
    · exact hl.pushed_move hinv hb hm he
    · cases hm
      case claimPush item' h =>
        cases List.mem_singleton.1 he
        refine ⟨?_, .inl (Function.update_self i _ _)⟩
        show s.writePos < u64 (s.writePos + 1)
        rw [u64_of_lt (by omega)]
        exact Nat.lt_succ_self _
      all_goals simp at he
  · intro j p he
    rcases List.mem_append.1 he with he | he
    · exact hl.popped_move hinv hb hm he
    · cases hm
      case claimPop h =>
        cases List.mem_singleton.1 he
        refine ⟨?_, .inl (Function.update_self i _ _)⟩
        show s.readPos < u64 (s.readPos + 1)
        rw [u64_of_lt (by omega)]
        exact Nat.lt_succ_self _
      all_goals simp at he
  · intro j item pos hc
    by_cases hj : j = i
    · subst hj
      cases hm <;> rw [State.setCall_calls, Function.update_self] at hc
      case here c h =>
        subst hc
        generalize hi : s.calls j = c₀ at h hok
        cases h with
        | pushAhead _ _ hd => exact hinv.lt_of_pushAhead hb hok hd
      all_goals cases hc
    · rw [hm.calls_of_ne hj] at hc
      exact Nat.lt_of_lt_of_le (hl.pushBehind j item pos hc) hw
  · intro j pos hc
    by_cases hj : j = i
    · subst hj
      cases hm <;> rw [State.setCall_calls, Function.update_self] at hc
      case here c h =>
        subst hc
        generalize hi : s.calls j = c₀ at h hok
        cases h with
        | popAhead _ hd => exact hinv.lt_of_popAhead hb hok hd
      all_goals cases hc
    · rw [hm.calls_of_ne hj] at hc
      exact Nat.lt_of_lt_of_le (hl.popBehind j pos hc) hr

theorem ledger_of_runs [Inhabited α] (h : (machine cap).Runs Machine.free tr s)
    (hb : (pushes tr).length < 2 ^ 63) : Ledger cap tr s := by
  induction h with
  | init => exact ledger_init
  | @step tr s s' a o hr _ hs ih =>
    have hb' : (pushes tr).length < 2 ^ 63 := by
      rw [pushes_append, List.length_append] at hb; omega
    exact (ih hb').move (inv_of_runs hr hb') hb' (.of_step hs)

end Lwipc.MpmcRingBuffer
