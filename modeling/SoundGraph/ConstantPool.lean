import SoundGraph.Sample
import Std.Data.HashMap

/-! A pool of constants, each bit pattern once, in the order of first use. -/

namespace SoundGraph

structure ConstantPool where
  values : Array Sample
  slots : Std.HashMap Sample Nat
  slots_iff : ∀ (v : Sample) (i : Nat), slots[v]? = some i ↔ values[i]? = some v

namespace ConstantPool

def empty : ConstantPool := ⟨#[], ∅, by simp⟩

/-- The slot of a value, and the pool with the value in it. -/
def intern (pool : ConstantPool) (v : Sample) : Nat × ConstantPool :=
  match h : pool.slots[v]? with
  | some i => (i, pool)
  | none =>
    (pool.values.size,
      { values := pool.values.push v
        slots := pool.slots.insert v pool.values.size
        slots_iff := by
          intro w i
          have hv : ∀ j, pool.values[j]? ≠ some v := fun j hj => by
            rw [(pool.slots_iff v j).2 hj] at h; cases h
          have hold := pool.slots_iff w i
          rw [Std.HashMap.getElem?_insert, Array.getElem?_push]
          by_cases hw : v = w
          · subst hw
            by_cases hi : i = pool.values.size
            · simp [hi]
            · simp only [hi, if_false, beq_self_eq_true, if_true]
              exact ⟨fun he => absurd (Option.some.inj he).symm hi, fun he => absurd he (hv i)⟩
          · by_cases hi : i = pool.values.size
            · subst hi
              simp only [beq_eq_false_iff_ne.2 hw, Bool.false_eq_true, if_false, if_true, hold]
              simp [hw]
            · simp [hw, hi, hold] })

theorem getElem?_intern (pool : ConstantPool) (v : Sample) :
    (pool.intern v).2.values[(pool.intern v).1]? = some v := by
  unfold intern
  split
  · next i h => exact (pool.slots_iff v i).1 h
  · simp

theorem nodup_values (pool : ConstantPool) {i j : Nat} {v : Sample}
    (hi : pool.values[i]? = some v) (hj : pool.values[j]? = some v) : i = j := by
  have := (pool.slots_iff v i).2 hi
  rw [(pool.slots_iff v j).2 hj] at this
  exact (Option.some.inj this).symm

end ConstantPool

end SoundGraph
