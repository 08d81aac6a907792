import Lwipc.ShmSegment
import Mathlib.Data.List.Perm.Subperm

/-!
# Constructions that fail, and `try_attach`

When `open_shm` throws, the destructor does not run: what it had opened stays open. A failed `shm_open`
leaves nothing behind, a failed `ftruncate` or `mmap` leaves the descriptor, and in a creation the name
bound to the new segment. `try_attach` swallows the exception and tries again, so each `mmap` that fails
costs the process a descriptor.
-/

namespace Lwipc.ShmSegment

/-- A construction that throws leaves the descriptors and the mappings of the process as they were, and no
segment that it made under the name. -/
def LeaksNothing (os : Os) (pid : Nat) (name : Name) (create : Bool) (out : Outcomes) : Prop :=
  ∀ e os', openShm os pid name create out = (.error e, os') →
    os'.procs pid = os.procs pid ∧
      ∀ seg, os'.bound name = some seg → ¬ (os.made ≤ seg ∧ seg < os'.made)

/-- The calls after a `shm_open` that returns a descriptor get what they need. -/
def CompletesOnceOpen (os : Os) (name : Name) (create : Bool) (out : Outcomes) : Prop :=
  out.opened = true → (create = true ∨ os.bound name ≠ none) →
    (create = true → out.truncated = true) ∧ out.mapped = true

/-- What the rest of the system does in the meantime: it may bind and unbind names and make segments, the
descriptors and mappings of `pid` are its own. -/
structure Others (pid : Nat) where
  run : Os → Os
  apart : ∀ os, (run os).procs pid = os.procs pid

def Others.none (pid : Nat) : Others pid := ⟨id, fun _ => rfl⟩

/-- One round of the loop of `try_attach`. -/
structure Round (pid : Nat) where
  /-- before `shm_exists` -/
  others : Others pid
  /-- whether the `shm_open` of `shm_exists` gets what it needs -/
  probed : Bool
  /-- between `shm_exists` and the construction -/
  meanwhile : Others pid
  out : Outcomes

/-- `try_attach`, with one round for each time that the deadline is not reached. -/
def tryAttach (pid : Nat) (name : Name) : Os → List (Round pid) → Option Ring × Os
  | os, [] => (.none, os)
  | os, r :: rounds =>
    match (if r.probed then shmExists (r.others.run os) pid name else (false, r.others.run os)) with
    | (false, os₁) => tryAttach pid name os₁ rounds
    | (true, os₁) =>
      match openShm (r.meanwhile.run os₁) pid name false r.out with
      | (.ok ring, os₂) => (some ring, os₂)
      | (.error _, os₂) => tryAttach pid name os₂ rounds

/-- In every round that comes to a construction, `mmap` gets what it needs once `shm_open` has returned a
descriptor. -/
def MapsOnceOpen (pid : Nat) (name : Name) : Os → List (Round pid) → Prop
  | _, [] => True
  | os, r :: rounds =>
    match (if r.probed then shmExists (r.others.run os) pid name else (false, r.others.run os)) with
    | (false, os₁) => MapsOnceOpen pid name os₁ rounds
    | (true, os₁) =>
      CompletesOnceOpen (r.meanwhile.run os₁) name false r.out ∧
        MapsOnceOpen pid name (openShm (r.meanwhile.run os₁) pid name false r.out).2 rounds

variable {os os' : Os} {pid : Nat} {name : Name} {create : Bool} {out : Outcomes}

/-! ### Descriptors -/

theorem lowest_notMem (used : List Nat) : lowest used ∉ used := by
  unfold lowest
  cases hf : (List.range (used.length + 1)).find? (· ∉ used) with
  | some n => simpa using List.find?_some hf
  | none =>
    -- as many numbers as there are in use, and one more, cannot all be in use
    have hsub : List.range (used.length + 1) ⊆ used := fun n hn => by
      simpa using List.find?_eq_none.1 hf n hn
    have hle := (List.nodup_range.subperm hsub).length_le
    rw [List.length_range] at hle
    omega

@[simp] theorem process_procs (os : Os) (pid : Nat) (f : Process → Process) :
    (os.process pid f).procs pid = f (os.procs pid) := Function.update_self _ _ _

theorem openFd_procs (os : Os) (pid seg : Nat) : ((os.openFd pid seg).2.procs pid) =
    { os.procs pid with fds := ((os.openFd pid seg).1, seg) :: (os.procs pid).fds } := by
  simp [Os.openFd, Os.process]

/-- A descriptor closed as soon as it was opened leaves no trace. -/
theorem close_openFd (os : Os) (pid seg : Nat) :
    ((os.openFd pid seg).2.close pid (os.openFd pid seg).1).procs pid = os.procs pid := by
  have hnew : ∀ fd ∈ (os.procs pid).fds, fd.1 ≠ (os.openFd pid seg).1 := by
    intro fd hfd heq
    have hmem : fd.1 ∈ (os.procs pid).fds.map Prod.fst := List.mem_map_of_mem hfd
    rw [heq] at hmem
    exact lowest_notMem _ hmem
  have hfilter : ((os.procs pid).fds.filter fun fd => decide (fd.1 ≠ (os.openFd pid seg).1)) =
      (os.procs pid).fds := List.filter_eq_self.2 fun fd hfd => by simpa using hnew fd hfd
  unfold Os.close
  rw [process_procs, openFd_procs, List.filter_cons_of_neg (by simp), hfilter]

theorem shmExists_procs (os : Os) (pid : Nat) (name : Name) :
    (shmExists os pid name).2.procs pid = os.procs pid := by
  unfold shmExists Os.shmOpen
  cases os.bound name with
  | none => rfl
  | some seg => exact close_openFd os pid seg

/-! ### Constructions -/

/-- The outcomes of an attachment, with what they leave of the process. -/
theorem openShm_attach_cases (os : Os) (pid : Nat) (name : Name) (out : Outcomes) :
    ((out.opened = false ∨ os.bound name = none) ∧
      openShm os pid name false out = (.error .attach, os)) ∨
    (∃ seg, out.opened = true ∧ os.bound name = some seg ∧ out.mapped = false ∧
      openShm os pid name false out = (.error .map, (os.openFd pid seg).2)) ∨
    (∃ ring os', out.opened = true ∧ os.bound name ≠ none ∧ out.mapped = true ∧
      openShm os pid name false out = (.ok ring, os')) := by
  obtain ⟨opened, truncated, mapped⟩ := out
  cases opened with
  | false => exact .inl ⟨.inl rfl, rfl⟩
  | true =>
    cases hb : os.bound name with
    | none =>
      refine .inl ⟨.inr rfl, ?_⟩
      simp [openShm, Os.shmOpen, hb]
    | some seg =>
      have hlook := openFd_lookup os pid seg
      cases mapped with
      | false =>
        refine .inr (.inl ⟨seg, rfl, rfl, rfl, ?_⟩)
        simp [openShm, Os.shmOpen, hb, Prod.map, mapShm, Os.mmap]
      | true =>
        obtain ⟨ring, os', ho, -⟩ := openShm_attach pid hb
        exact .inr (.inr ⟨ring, os', rfl, by simp, rfl, ho⟩)

/-- The outcomes of a creation. -/
theorem openShm_create_cases (os : Os) (pid : Nat) (name : Name) (out : Outcomes) :
    (out.opened = false ∧ openShm os pid name true out = (.error .create, os.shmUnlink name)) ∨
    (out.opened = true ∧ ¬ (out.truncated = true ∧ out.mapped = true) ∧ ∃ e os' fd,
      openShm os pid name true out = (.error e, os') ∧
      os'.procs pid = { os.procs pid with fds := (fd, os.made) :: (os.procs pid).fds }) ∨
    (out.truncated = true ∧ out.mapped = true ∧ ∃ ring os',
      openShm os pid name true out = (.ok ring, os')) := by
  obtain ⟨opened, truncated, mapped⟩ := out
  let os₁ : Os := { os.bind name (some os.made) with made := os.made + 1 }
  cases opened with
  | false => exact .inl ⟨rfl, rfl⟩
  | true =>
    have hopen : (os.shmUnlink name).shmOpen pid name true true =
        (some (os₁.openFd pid os.made).1, (os₁.openFd pid os.made).2) := shmOpen_unlinked os pid name
    have hfd := openFd_procs os₁ pid os.made
    cases truncated with
    | false =>
      refine .inr (.inl ⟨rfl, by simp, .truncate, (os₁.openFd pid os.made).2, _, ?_, hfd⟩)
      simp [openShm, hopen]
    | true =>
      cases mapped with
      | false =>
        refine .inr (.inl ⟨rfl, by simp, .map, (os₁.openFd pid os.made).2, _, ?_, hfd⟩)
        simp [openShm, hopen, mapShm, Os.mmap]
      | true =>
        obtain ⟨ring, os', ho, -⟩ := openShm_create os pid name
        exact .inr (.inr ⟨rfl, rfl, ring, os', ho⟩)

theorem leaksNothing_iff (os : Os) (pid : Nat) (name : Name) (create : Bool) (out : Outcomes) :
    LeaksNothing os pid name create out ↔ CompletesOnceOpen os name create out := by
  -- a descriptor more is not what was there before
  have hmore {fd : Nat × Nat} : ({ os.procs pid with fds := fd :: (os.procs pid).fds } : Process) ≠ os.procs pid :=
    fun h => List.cons_ne_self _ _ (congrArg Process.fds h)
  unfold LeaksNothing CompletesOnceOpen
  cases create with
  | true =>
    rcases openShm_create_cases os pid name out with ⟨ho, he⟩ | ⟨ho, hbad, e, os', fd, he, hp⟩ |
      ⟨ht, hm, ring, os', he⟩ <;> rw [he]
    · refine iff_of_true (fun e os' h => ?_) (fun h => ?_)
      · obtain ⟨-, rfl⟩ := Prod.mk.inj h
        exact ⟨rfl, fun seg h => by simp [Os.shmUnlink] at h⟩
      · rw [ho] at h
        cases h
    · refine iff_of_false (fun h => ?_) (fun h => ?_)
      · have := (h e os' rfl).1
        rw [hp] at this
        exact hmore this
      · exact hbad ⟨(h ho (.inl rfl)).1 rfl, (h ho (.inl rfl)).2⟩
    · refine iff_of_true (fun e os'' h => ?_) (fun _ _ => ⟨fun _ => ht, hm⟩)
      cases (Prod.mk.inj h).1
  | false =>
    rcases openShm_attach_cases os pid name out with ⟨ho, he⟩ | ⟨seg, ho, hb, hm, he⟩ |
      ⟨ring, os', ho, hb, hm, he⟩ <;> rw [he]
    · refine iff_of_true (fun e os' h => ?_) (fun h hb => ?_)
      · obtain ⟨-, rfl⟩ := Prod.mk.inj h
        exact ⟨rfl, fun seg _ hseg => by omega⟩
      · rcases ho with ho | ho
        · rw [ho] at h
          cases h
        · exact absurd ho (hb.resolve_left (by simp))
    · refine iff_of_false (fun h => ?_) (fun h => ?_)
      · have := (h _ _ rfl).1
        rw [openFd_procs] at this
        exact hmore this
      · have := (h ho (.inr (by simp [hb]))).2
        rw [hm] at this
        cases this
    · refine iff_of_true (fun e os'' h => ?_) (fun _ _ => ⟨by simp, hm⟩)
      cases (Prod.mk.inj h).1

/-! ### `try_attach` -/

theorem probe_procs (os : Os) (name : Name) (r : Round pid) :
    ((if r.probed then shmExists (r.others.run os) pid name else (false, r.others.run os)).2.procs pid) =
      os.procs pid := by
  split
  · rw [shmExists_procs, r.others.apart]
  · exact r.others.apart os

/-- What a round does: it leaves the process as it was and goes on, it loses a descriptor to an `mmap`
that failed and goes on, or it succeeds. -/
theorem round_cases (os : Os) (name : Name) (r : Round pid) (rounds : List (Round pid)) :
    (∃ os', os'.procs pid = os.procs pid ∧
      tryAttach pid name os (r :: rounds) = tryAttach pid name os' rounds ∧
      (MapsOnceOpen pid name os (r :: rounds) ↔ MapsOnceOpen pid name os' rounds)) ∨
    (∃ os', (os'.procs pid).fds.length = (os.procs pid).fds.length + 1 ∧
      tryAttach pid name os (r :: rounds) = tryAttach pid name os' rounds ∧
      ¬ MapsOnceOpen pid name os (r :: rounds)) ∨
    ∃ ring os', tryAttach pid name os (r :: rounds) = (some ring, os') := by
  have hprobe := probe_procs os name r
  simp only [tryAttach, MapsOnceOpen]
  generalize (if r.probed then shmExists (r.others.run os) pid name else (false, r.others.run os)) = probe
    at hprobe ⊢
  obtain ⟨_ | _, os₁⟩ := probe
  · exact .inl ⟨os₁, hprobe, rfl, Iff.rfl⟩
  · have hproc : (r.meanwhile.run os₁).procs pid = os.procs pid := (r.meanwhile.apart os₁).trans hprobe
    rcases openShm_attach_cases (r.meanwhile.run os₁) pid name r.out with ⟨ho, he⟩ |
      ⟨seg, ho, hb, hm, he⟩ | ⟨ring, os₂, ho, hb, hm, he⟩ <;> simp only [he]
    · refine .inl ⟨_, hproc, rfl, and_iff_right fun h hbound => ?_⟩
      rcases ho with ho | ho
      · rw [ho] at h
        cases h
      · exact absurd ho (hbound.resolve_left (by simp))
    · refine .inr (.inl ⟨_, ?_, rfl, fun h => ?_⟩)
      · rw [openFd_procs, hproc]
        rfl
      · have hmapped := (h.1 ho (.inr (by simp [hb]))).2
        rw [hm] at hmapped
        cases hmapped
    · exact .inr (.inr ⟨ring, os₂, rfl⟩)

/-- A `try_attach` that returns null has the descriptors of its start and one more for each `mmap` that
failed. -/
theorem tryAttach_none (rounds : List (Round pid)) (h : (tryAttach pid name os rounds).1 = .none) :
    (MapsOnceOpen pid name os rounds → (tryAttach pid name os rounds).2.procs pid = os.procs pid) ∧
    (¬ MapsOnceOpen pid name os rounds →
      (os.procs pid).fds.length < ((tryAttach pid name os rounds).2.procs pid).fds.length) := by
  induction rounds generalizing os with
  | nil => exact ⟨fun _ => rfl, fun hn => absurd trivial hn⟩
  | cons r rounds ih =>
    rcases round_cases os name r rounds with ⟨os', hp, ht, hm⟩ | ⟨os', hp, ht, hm⟩ | ⟨ring, os', ht⟩ <;>
      rw [ht] at h ⊢
    · rw [hm, ← hp]
      exact ih h
    · refine ⟨fun hn => absurd hn hm, fun _ => ?_⟩
      by_cases hrest : MapsOnceOpen pid name os' rounds
      · rw [(ih h).1 hrest]
        omega
      · have := (ih h).2 hrest
        omega
    · cases h

/-- A construction that throws leaks nothing if and only if the calls that follow a successful `shm_open`
succeed; a `try_attach` that returns null has lost no descriptor if and only if this was so in each of its
rounds. -/
theorem leaks_nothing_iff (os : Os) (pid : Nat) (name : Name) :
    (∀ create out, LeaksNothing os pid name create out ↔ CompletesOnceOpen os name create out) ∧
    ∀ rounds, (tryAttach pid name os rounds).1 = .none →
      (((tryAttach pid name os rounds).2.procs pid).fds.length ≤ (os.procs pid).fds.length ↔
        MapsOnceOpen pid name os rounds) := by
  refine ⟨leaksNothing_iff os pid name, fun rounds h => ?_⟩
  obtain ⟨hclean, hleak⟩ := tryAttach_none rounds h
  by_cases hm : MapsOnceOpen pid name os rounds
  · exact iff_of_true (by rw [hclean hm]) hm
  · exact iff_of_false (Nat.not_le_of_gt (hleak hm)) hm

/-- The system after process 0 has made `/lidar`. -/
def oneSegment : Os := (openShm machine.init.os 0 lidarShm true .all).2

/-- A round in which `mmap` fails. -/
def failingRound : Round 1 := ⟨.none 1, true, .none 1, ⟨true, true, false⟩⟩

/-- A creation whose `ftruncate` fails leaves a descriptor and the name bound; an attachment whose `mmap`
fails leaves a descriptor, and so does each round of `try_attach` with such an attachment. -/
theorem failed_construction_leaks :
    ¬ LeaksNothing machine.init.os 0 lidarShm true ⟨true, false, true⟩ ∧
    (openShm machine.init.os 0 lidarShm true ⟨true, false, true⟩).2.bound lidarShm = some 0 ∧
    ¬ LeaksNothing oneSegment 1 lidarShm false ⟨true, true, false⟩ ∧
    (tryAttach 1 lidarShm oneSegment [failingRound, failingRound]).1.isNone = true ∧
    (oneSegment.procs 1).fds = [] ∧
    ((tryAttach 1 lidarShm oneSegment [failingRound, failingRound]).2.procs 1).fds = [(1, 0), (0, 0)] := by
  refine ⟨?_, by decide +kernel, ?_, by decide +kernel, by decide +kernel, by decide +kernel⟩
  · rw [leaksNothing_iff]
    exact fun h => absurd ((h rfl (.inl rfl)).1 rfl) (by decide)
  · rw [leaksNothing_iff]
    exact fun h => absurd (h rfl (.inr (by decide +kernel))).2 (by decide)

end Lwipc.ShmSegment
