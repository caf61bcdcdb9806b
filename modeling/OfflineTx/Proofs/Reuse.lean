import OfflineTx.Proofs.AddressMap
import OfflineTx.Proofs.Calls

/-!
# Compilers that were used before

What a compiler inserts into its map leaves nothing behind once the map is cleared, and laying out
only changes the keys (`renewable_compile`). A compiler clears its map before it compiles, and then
is as a new one is (`Reached.compile_eq_empty`).
-/

namespace OfflineTx

namespace Compiler

variable {c : Compiler}

/-- Cleared, the compiler is as a new one is. -/
structure Renewable (c : Compiler) : Prop where
  linked : c.positions.Linked
  clear_eq : c.positions.clear = .empty

theorem renewable_empty : empty.Renewable where
  linked := AddressMap.linked_empty (by decide)
  clear_eq := AddressMap.clear_empty

theorem Renewable.refer (h : c.Renewable) (a : AccountMeta) : (c.refer a).Renewable := by
  unfold Compiler.refer
  split
  · exact ⟨h.linked, h.clear_eq⟩
  · refine ⟨h.linked.insert _ _, ?_⟩
    rw [AddressMap.clear_insert h.linked, h.clear_eq]

theorem renewable_collect (feePayer : Address) (ixs : List Instruction) :
    (empty.collect feePayer ixs).Renewable :=
  List.foldlRecOn ixs _ (renewable_empty.refer _) fun _ h ix _ =>
    List.foldlRecOn ix.references _ h fun _ h a _ => h.refer a

theorem positions_setIndex (c : Compiler) (a : Address) (i : Nat) :
    (c.setIndex a i).positions = c.positions := by
  unfold setIndex
  split <;> rfl

theorem Renewable.layOut (h : c.Renewable) : c.layOut.Renewable :=
  List.foldlRecOn _ _ h fun c h (a, i) _ => by
    have heq := positions_setIndex c a.address i
    exact ⟨heq ▸ h.linked, heq ▸ h.clear_eq⟩

theorem renewable_compile (version : Version) (feePayer : Address) (recentHash : Hash)
    (ixs : List Instruction) : (empty.compile version feePayer recentHash ixs).2.Renewable := by
  have h := renewable_collect feePayer ixs
  unfold compile
  dsimp only
  split
  · exact h
  · split
    · exact h.layOut
    · exact h.layOut

theorem Renewable.collect_eq (h : c.Renewable) (feePayer : Address) (ixs : List Instruction) :
    c.collect feePayer ixs = empty.collect feePayer ixs := by
  have hclear : c.clear = empty.clear := by
    rw [clear, h.clear_eq]
    rfl
  rw [collect, collect, hclear]

end Compiler

namespace TrackedCompiler

/-- A compiler that is new, or has made compilations since it was. -/
inductive Reached : TrackedCompiler → Prop
  | new : Reached .empty
  | compile {c : TrackedCompiler} (version : Version) (feePayer : Address) (recentHash : Hash)
      (ixs : List Instruction) : Reached c →
        Reached (c.compile version feePayer recentHash ixs).after

variable {c : TrackedCompiler}

theorem Reached.renewable (h : c.Reached) : c.value.Renewable := by
  induction h with
  | new => exact Compiler.renewable_empty
  | compile version feePayer recentHash ixs _ ih =>
    rw [TrackedCompiler.value_compile, Compiler.compile, ih.collect_eq]
    exact Compiler.renewable_compile version feePayer recentHash ixs

/-- A compiler answers, reports, tells the log and holds afterwards what a new one does. -/
theorem Reached.compile_eq_empty (h : c.Reached) (version : Version) (feePayer : Address)
    (recentHash : Hash) (ixs : List Instruction) :
    TrackedCompiler.compile c version feePayer recentHash ixs =
      empty.compile version feePayer recentHash ixs := by
  have hnew : c.compileNew version feePayer recentHash ixs =
      empty.compileNew version feePayer recentHash ixs := by
    unfold compileNew
    simp only [Method.run_reset_bind, Method.run_modify_bind, Reporter.report]
    rw [h.renewable.collect_eq, empty, Tracked.fresh]
  rw [TrackedCompiler.compile, TrackedCompiler.compile, Method.run_bind, Method.run_bind,
    Method.run_call, Method.run_call, hnew]

/-- What a compiler answers does not depend on what it compiled before. -/
theorem Reached.answer_compile (h : c.Reached) (version : Version) (feePayer : Address)
    (recentHash : Hash) (ixs : List Instruction) :
    (c.compile version feePayer recentHash ixs).answer =
      Message.compile version feePayer recentHash ixs := by
  rw [h.compile_eq_empty, TrackedCompiler.answer_compile]
  rfl

end TrackedCompiler

end OfflineTx
