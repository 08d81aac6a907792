import Lwipc.SpmcInv

/-!
# `IntraRingBuffer`: the same ring with any number of producers

`IntraPublisher`s share one ring, so `push` runs in several threads at once. The `fetch_add` hands
out distinct positions, but nothing stops the others from lapping a producer that is suspended
between its `fetch_add` and its ready store. Two pushes then write one slot, and a reader's double
check of the sequence can pass over the data of the older one (`misread_after_lap`). Lapping is the
whole trouble: without it a `pop` that returns true gives the item of its position
(`item_of_position`).
-/

namespace Lwipc.IntraRingBuffer

open SpmcRing

variable {P C : Type} {n : Nat} {W : Type} [DecidableEq P] [DecidableEq C] [Inhabited W]

/-- The ring with producers `P`; `push` has no heartbeat. -/
def machine (cap : Capacity) : Machine (State P C n W) (Act P C n W) (Event P C n W) :=
  SpmcRing.machine false cap

/-- In every run of fewer than `2 ^ 63` pushes in which no `fetch_add` claims a position whose slot
an earlier push is still writing, a `pop` that returned true gave the item of the push whose
`fetch_add` returned the position before its cursor. -/
theorem item_of_position (cap : Capacity) (tr : List (Event P C n W)) (s : State P C n W)
    (h : (machine cap).Runs (NoLap cap) tr s) (hb : (claims tr).length < 2 ^ 63) :
    ∀ c pos out, .ret c true pos out ∈ tr → 0 < pos ∧ itemAt tr (pos - 1) = some out :=
  fun _ _ _ hr => item_of_ret h hb hr

/-- Two producers in flight at once, in different slots; the reader gets what the slower one wrote. -/
theorem item_of_position_two_producers :
    ∃ (tr : List (Event Bool Unit 1 Nat)) (out : Fin 1 → Nat),
      .ret () true 1 out ∈ tr ∧ itemAt tr 0 = some (fun _ => 100) ∧ out = fun _ => 100 := by
  let M : Machine (State Bool Unit 1 Nat) (Act Bool Unit 1 Nat) (Event Bool Unit 1 Nat) :=
    machine .two
  let g (s : State Bool Unit 1 Nat) (a : Act Bool Unit 1 Nat) : Bool := decide (NoLap .two [] s a)
  let acts : List (Act Bool Unit 1 Nat) :=
    [.cons () .makeCursor, .prod false (.push fun _ => 100), .prod false .mark,
      .prod true (.push fun _ => 101), .prod true .mark, .prod true (.word 0), .prod true .ready,
      .prod false (.word 0), .prod false .ready, .cons () (.pop fun _ => 0), .cons () .check,
      .cons () (.read 0), .cons () .recheck, .cons () .ret]
  have hexec : ((M.restrict g).exec M.init acts).map (fun r => ((claims r.2).length, itemAt r.2 0,
      (returns () r.2).map Prod.fst)) = some (2, some (fun _ => 100), [1]) := by decide +kernel
  obtain ⟨tr, s, hr, hend⟩ := Machine.Runs.exists_of_restrict (NoLap .two)
    (fun _ _ _ h => of_decide_eq_true h) hexec
  simp only [Prod.mk.injEq] at hend
  obtain ⟨hlen, hitem, hret⟩ := hend
  obtain ⟨⟨_, out⟩, hmem, rfl⟩ := List.mem_map.1 (hret ▸ List.mem_singleton_self 1)
  have hout := (item_of_position .two tr s hr (by rw [hlen]; decide) () 1 out (mem_returns.1 hmem)).2
  rw [Nat.sub_self, hitem] at hout
  exact ⟨tr, out, mem_returns.1 hmem, hitem, (Option.some.inj hout).symm⟩

/-- Producer `false` is suspended in the copy of position 0 while `true` pushes positions 1 and 2,
and resumes while the reader of position 2 stands between its two checks. -/
theorem misread_after_lap :
    ∃ (tr : List (Event Bool Unit 1 Nat)) (s : State Bool Unit 1 Nat) (pos : Nat) (out : Fin 1 → Nat),
      (machine .two).Runs Machine.free tr s ∧ (claims tr).length < 2 ^ 63 ∧
      .ret () true pos out ∈ tr ∧ itemAt tr (pos - 1) ≠ some out := by
  let M : Machine (State Bool Unit 1 Nat) (Act Bool Unit 1 Nat) (Event Bool Unit 1 Nat) :=
    machine .two
  let push (k : Nat) : List (Act Bool Unit 1 Nat) :=
    [.prod true (.push fun _ => k), .prod true .mark, .prod true (.word 0), .prod true .ready]
  let acts : List (Act Bool Unit 1 Nat) :=
    [Act.prod false (.push fun _ => 100), .prod false .mark] ++ push 101 ++ [Act.cons () .makeCursor] ++
    push 102 ++ [Act.cons () (.pop fun _ => 0), .cons () .check, .prod false (.word 0),
      .cons () (.read 0), .cons () .recheck, .cons () .ret]
  have hexec : (M.exec M.init acts).map (fun r => ((claims r.2).length, itemAt r.2 2,
      (returns () r.2).map fun x => (x.1, x.2 0))) =
      some (3, some (fun _ => 102), [(3, 100)]) := by decide +kernel
  obtain ⟨tr, s, hr, hend⟩ := Machine.Runs.exists_of_exec hexec
  simp only [Prod.mk.injEq] at hend
  obtain ⟨hlen, hitem, hret⟩ := hend
  obtain ⟨⟨pos, out⟩, hmem, hx⟩ := List.mem_map.1 (hret ▸ List.mem_singleton_self ((3, 100) : Nat × Nat))
  obtain ⟨rfl, hout⟩ := Prod.mk.inj hx
  refine ⟨tr, s, 3, out, hr, by rw [hlen]; decide, mem_returns.1 hmem, ?_⟩
  rw [hitem]
  intro heq
  rw [← Option.some.inj heq] at hout
  cases hout

end Lwipc.IntraRingBuffer
