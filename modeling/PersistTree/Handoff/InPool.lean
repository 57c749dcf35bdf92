import PersistTree.Handoff.Completion
import PersistTree.Pmem.Allocated

/-!
# The hand-off and the end of the pool

The NVM list lies in a pool of a fixed size, and `Allocate` does not look at its end: the insertion
that passes it ends the process. Up to there nothing else goes wrong, and all keys get there if
there is room for them.
-/
namespace PersistTree.Handoff

open Library Transition

/-- The hand-off with its lists, `size` bytes being mapped for the NVM list. -/
def mappedStep (d : ListParams) (size : ℕ) : ListState → ListAction → Option ListState :=
  confined (listStep d) fun s => decide (s.nvm.allocated ≤ size)

theorem mappedStep_of_room {d : ListParams} {size : ℕ} {s : ListState} (h : s.nvm.allocated ≤ size)
    (a : ListAction) : mappedStep d size s a = listStep d s a :=
  if_pos (decide_eq_true h)

theorem twoKeys_fit : ∃ s, run (mappedStep twoParams 59) (listInit twoParams) twoKeys = some s ∧
    s.nvm.allocated = 59 ∧ (s.core.queue = [] ∧ s.core.producer = .idle) ∧
    (s.core.pending = 0 ∧ s.core.stop = false) ∧
    (s.core.workers 0).pc = .idle ∧ (s.core.workers 1).pc = .idle := by
  have hrun : (run (mappedStep twoParams 59) (listInit twoParams) twoKeys).map (fun s =>
      (s.nvm.allocated, (s.core.queue, s.core.producer), (s.core.pending, s.core.stop),
        (s.core.workers 0).pc, (s.core.workers 1).pc)) =
      some (59, ([], .idle), (0, false), .idle, .idle) := rfl
  obtain ⟨s, hs, he⟩ := Option.map_eq_some_iff.mp hrun
  simp only [Prod.mk.injEq] at he
  exact ⟨s, hs, he⟩

end PersistTree.Handoff
