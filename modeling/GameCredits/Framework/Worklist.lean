import Mathlib.Data.List.Nodup

/-!
# Worklists

A worklist takes one node after another from its queue, does it, and queues its successors; a node
that is done is passed over when it comes up again. `Worklist` is the invariant of such a loop, with a
rule for each of its branches (`Worklist.pass`, `Worklist.take`). Once the queue is empty, the nodes
done are those that are reached from the first ones (`Worklist.done_iff`).
-/

namespace GC.Framework

variable {α : Type}

/-- The nodes `present` that are reached from those in `start` along `edge`, through such nodes
only. -/
inductive Reached (present : α → Prop) (edge : α → α → Prop) (start : List α) : α → Prop
  | start {x : α} (hx : x ∈ start) (h : present x) : Reached present edge start x
  | next {x y : α} (hx : Reached present edge start x) (hxy : edge x y) (hy : present y) :
      Reached present edge start y

/-- With `queue` still to do, `done` has been done from `start`. -/
structure Worklist (present : α → Prop) (edge : α → α → Prop) (start queue done : List α) : Prop where
  nodup : done.Nodup
  sound : ∀ x ∈ done, Reached present edge start x
  reach : ∀ x ∈ queue, present x → Reached present edge start x
  first : ∀ x ∈ start, present x → x ∈ done ∨ x ∈ queue
  closed : ∀ x ∈ done, ∀ y, edge x y → present y → y ∈ done ∨ y ∈ queue

namespace Worklist

variable {present : α → Prop} {edge : α → α → Prop} {start queue done : List α} {x : α}

theorem init : Worklist present edge start start [] where
  nodup := .nil
  sound _ hx := by cases hx
  reach _ hx h := .start hx h
  first _ hx _ := .inr hx
  closed _ hx := by cases hx

/-- A node that is not there, or done. -/
theorem pass (h : Worklist present edge start (x :: queue) done) (hx : present x → x ∈ done) :
    Worklist present edge start queue done := by
  have hleft : ∀ y, present y → y ∈ done ∨ y ∈ x :: queue → y ∈ done ∨ y ∈ queue := by
    rintro y hy (hdone | hmem)
    · exact .inl hdone
    · rcases List.mem_cons.mp hmem with rfl | hmem
      · exact .inl (hx hy)
      · exact .inr hmem
  exact ⟨h.nodup, h.sound, fun y hy => h.reach y (List.mem_cons_of_mem _ hy),
    fun y hy hp => hleft y hp (h.first y hy hp), fun z hz y hzy hp => hleft y hp (h.closed z hz y hzy hp)⟩

/-- A node that is done now: the nodes that it queues are its successors, except for some that are
done. -/
theorem take (h : Worklist present edge start (x :: queue) done) (hx : present x) (hnew : x ∉ done)
    {next : List α} (hnext : ∀ y ∈ next, edge x y)
    (hall : ∀ y, edge x y → present y → y ∈ done ∨ y = x ∨ y ∈ next) :
    Worklist present edge start (queue ++ next) (done ++ [x]) := by
  have hreach := h.reach x List.mem_cons_self hx
  have hleft : ∀ y, y ∈ done ∨ y ∈ x :: queue → y ∈ done ++ [x] ∨ y ∈ queue ++ next := by
    rintro y (hdone | hmem)
    · exact .inl (List.mem_append_left _ hdone)
    · rcases List.mem_cons.mp hmem with rfl | hmem
      · exact .inl (List.mem_append_right _ (List.mem_singleton_self _))
      · exact .inr (List.mem_append_left _ hmem)
  refine ⟨List.nodup_append.mpr ⟨h.nodup, List.nodup_singleton x, fun a ha b hb => ?_⟩, fun y hy => ?_,
    fun y hy hp => ?_, fun y hy hp => hleft y (h.first y hy hp), fun z hz y hzy hp => ?_⟩
  · rw [List.mem_singleton.mp hb]
    exact fun hab => hnew (hab ▸ ha)
  · rcases List.mem_append.mp hy with hy | hy
    · exact h.sound y hy
    · rw [List.mem_singleton.mp hy]
      exact hreach
  · rcases List.mem_append.mp hy with hy | hy
    · exact h.reach y (List.mem_cons_of_mem _ hy) hp
    · exact hreach.next (hnext y hy) hp
  · rcases List.mem_append.mp hz with hz | hz
    · exact hleft y (h.closed z hz y hzy hp)
    · rw [List.mem_singleton.mp hz] at hzy
      rcases hall y hzy hp with hy | rfl | hy
      · exact .inl (List.mem_append_left _ hy)
      · exact .inl (List.mem_append_right _ (List.mem_singleton_self _))
      · exact .inr (List.mem_append_right _ hy)

/-- Nothing is left to do. -/
theorem done_iff (h : Worklist present edge start [] done) :
    x ∈ done ↔ Reached present edge start x := by
  have hdone : ∀ {y}, y ∈ done ∨ y ∈ ([] : List α) → y ∈ done := fun hy =>
    hy.resolve_right List.not_mem_nil
  refine ⟨h.sound x, fun hx => ?_⟩
  induction hx with
  | start hx hp => exact hdone (h.first _ hx hp)
  | next _ hxy hp ih => exact hdone (h.closed _ ih _ hxy hp)

end Worklist

end GC.Framework
