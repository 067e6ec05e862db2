import Epiphany.Common.Demand
/-!
# Transfer — one system of tasks in place of another

A system whose tasks read less may stand for one whose tasks read more, where
each of its tasks comes to the result of the other's. A read may rely on what
the path needs: each key in progress has a value only if the key it waits for
has one, so no value is lost to a cycle on the way (`read_transfer`).
-/

namespace Epiphany

namespace Demand

variable {κ β ε : Type} [DecidableEq κ]

/-- What holds of each item from some number on holds of a list from one. -/
theorem exists_common {ι : Type*} {P : Nat → ι → Prop} {l : List ι}
    (hmono : ∀ m n i, m ≤ n → P m i → P n i) (h : ∀ i ∈ l, ∃ m, P m i) :
    ∃ m, ∀ i ∈ l, P m i := by
  induction l with
  | nil => exact ⟨0, fun i hi => by cases hi⟩
  | cons i l ih =>
    obtain ⟨m, hm⟩ := h i List.mem_cons_self
    obtain ⟨n, hn⟩ := ih fun j hj => h j (List.mem_cons_of_mem _ hj)
    refine ⟨max m n, fun j hj => ?_⟩
    rcases List.mem_cons.1 hj with rfl | hj
    · exact hmono m _ j (le_max_left m n) hm
    · exact hmono n _ j (le_max_right m n) (hn j hj)

namespace System

variable {s t : System κ β ε}

/-- The reads of one system are found in another. -/
def Found (t : System κ β ε) (path : List κ) (d : κ) (r : Except ε β) : Prop :=
  ∃ m, t.read m path d = some r

/-- The rest of a task comes to its result where its questions are found. -/
theorem run_transfer {n : Nat} {path : List κ} {k : κ} (hneeds : s.Needs path k)
    (ih : ∀ d r, s.Needs (k :: path) d → s.read n (k :: path) d = some r →
      t.Found (k :: path) d r)
    {task : Task κ β ε β} {r : Except ε β} (hrest : s.Rest k task)
    (h : task.run (s.read n (k :: path)) = some r) :
    ∃ m, task.run (t.read m (k :: path)) = some r := by
  induction task with
  | done r' => exact ⟨0, h⟩
  | ask d next iht =>
    rw [Task.run] at h
    rcases hd : s.read n (k :: path) d with _ | e | w
    · simp [hd] at h
    · rw [hd] at h
      obtain ⟨m, hm⟩ := ih d _ (hrest.needs hneeds) hd
      exact ⟨m, by rw [Task.run, hm]; exact h⟩
    · rw [hd] at h
      obtain ⟨m, hm⟩ := ih d _ (hrest.needs hneeds) hd
      obtain ⟨j, hj⟩ := iht w (hrest.next hd) h
      refine ⟨max m j, ?_⟩
      rw [Task.run, read_mono (le_max_left m j) hm]
      exact Task.run_mono (fun d' r' hd' => read_mono (le_max_right m j) hd') hj

/-- The task of a key in the other system comes to the result it has in this
one, where the questions of this one are found. -/
def Stands (s t : System κ β ε) (k : κ) : Prop :=
  ∀ n path r, s.Needs path k →
    (∀ d r, s.Needs (k :: path) d → s.read n (k :: path) d = some r → t.Found (k :: path) d r) →
    (s.compute k).run (s.read n (k :: path)) = some r →
      ∃ m, (t.compute k).run (t.read m (k :: path)) = some r

theorem stands_of_eq {k : κ} (h : t.compute k = s.compute k) : s.Stands t k := by
  intro n path r hneeds ih hrun
  rw [h]
  exact run_transfer hneeds ih (rest_compute k) hrun

/-- **Transfer.** Where every task stands for its own, so does every read that
the path needs. -/
theorem read_transfer (hcycle : ∀ k, t.cycle k = s.cycle k) (h : ∀ k, s.Stands t k) {n : Nat}
    {path : List κ} {k : κ} {r : Except ε β} (hneeds : s.Needs path k)
    (hread : s.read n path k = some r) : t.Found path k r := by
  induction n generalizing path k r with
  | zero => simp [read] at hread
  | succ n ih =>
    by_cases hk : k ∈ path
    · rw [read_of_mem hk] at hread
      exact ⟨1, by rw [read_of_mem hk, hcycle]; exact hread⟩
    · rw [read_of_not_mem hk] at hread
      obtain ⟨m, hm⟩ := h k n path r hneeds (fun d r hd hr => ih hd hr) hread
      exact ⟨m + 1, by rw [read_of_not_mem hk]; exact hm⟩

/-- Needs follow one another. -/
theorem Needs.cons {path : List κ} {k d : κ} (hneeds : s.Needs path k)
    (hk : ∀ n v, s.read n [] k = some (.ok v) → ∃ m < n, ∃ w, s.read m [] d = some (.ok w)) :
    s.Needs (k :: path) d := by
  intro p hp n v hv
  rcases List.mem_cons.1 hp with rfl | hp
  · exact hk n v hv
  · obtain ⟨m, hm, w, hw⟩ := hneeds p hp n v hv
    obtain ⟨j, hj, u, hu⟩ := hk m w hw
    exact ⟨j, by omega, u, hu⟩

end System

end Demand

end Epiphany
