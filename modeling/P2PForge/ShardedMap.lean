import Mathlib

/-! Maps split into shards.
A key lives in the shard that `place` assigns to it. Reading back through `lookup` hides
the split: a store changes the entry of its own key only, also when two keys share a
shard, and a sweep of one shard acts on each entry by itself. -/
namespace P2PForge.ShardedMap

variable {κ ν : Type} [BEq κ] [Hashable κ] [LawfulBEq κ] [LawfulHashable κ] {n : ℕ}

abbrev Shards (κ ν : Type) [BEq κ] [Hashable κ] (n : ℕ) := Vector (Std.ExtHashMap κ ν) n

variable (place : κ → Fin n)

def lookup (m : Shards κ ν n) (k : κ) : Option ν := m[place k][k]?

def store (m : Shards κ ν n) (k : κ) (v : ν) : Shards κ ν n :=
  m.set (place k) (m[place k].insert k v)

/-- Replace every entry `v` of shard `i` by `f v`, dropping it where that is `none`. -/
def sweep (m : Shards κ ν n) (i : ℕ) (f : ν → Option ν) : Shards κ ν n :=
  if h : i < n then m.set i (m[i].filterMap fun _ v => f v) else m

def empty : Shards κ ν n := Vector.replicate n ∅

@[simp] theorem lookup_empty (k : κ) : lookup place (empty : Shards κ ν n) k = none := by
  simp [lookup,empty]

@[simp] theorem lookup_store_self (m : Shards κ ν n) (k : κ) (v : ν) :
    lookup place (store place m k v) k = some v := by
  simp [lookup,store]

theorem lookup_store_ne (m : Shards κ ν n) {k k' : κ} (v : ν) (h : k' ≠ k) :
    lookup place (store place m k v) k' = lookup place m k' := by
  simp only [lookup,store,Fin.getElem_fin,Vector.getElem_set]
  split
  · rename_i hp
    simp [Std.ExtHashMap.getElem?_insert,h.symm,hp]
  · rfl

theorem lookup_sweep (m : Shards κ ν n) (i : ℕ) (f : ν → Option ν) (k : κ) :
    lookup place (sweep m i f) k = lookup place m k ∨
      lookup place (sweep m i f) k = (lookup place m k).bind f := by
  simp only [sweep]
  split
  · simp only [lookup,Fin.getElem_fin,Vector.getElem_set]
    split
    · right
      rename_i hp
      subst hp
      simp [Std.ExtHashMap.getElem?_filterMap,Option.pbind_eq_bind]
    · exact Or.inl rfl
  · exact Or.inl rfl

theorem lookup_sweep_self (m : Shards κ ν n) (k : κ) (f : ν → Option ν) :
    lookup place (sweep m (place k) f) k = (lookup place m k).bind f := by
  simp [sweep,lookup,Std.ExtHashMap.getElem?_filterMap,Option.pbind_eq_bind]

section Size

variable {place}

variable (place) in
/-- Every key is in the shard it belongs to. -/
def Placed (m : Shards κ ν n) : Prop := ∀ (i : Fin n) (k : κ), k ∈ m[i] → place k = i

theorem Placed.store {m : Shards κ ν n} (h : Placed place m) (k : κ) (v : ν) :
    Placed place (store place m k v) := by
  intro i k' hk'
  simp only [ShardedMap.store,Fin.getElem_fin,Vector.getElem_set] at hk'
  split at hk'
  · rename_i hi
    rcases Std.ExtHashMap.mem_insert.mp hk' with heq | hold
    · rw [← eq_of_beq heq]
      exact Fin.ext hi
    · rw [h _ k' hold]
      exact Fin.ext hi
  · exact h i k' hk'

theorem Placed.sweep {m : Shards κ ν n} (h : Placed place m) (i : ℕ) (f : ν → Option ν) :
    Placed place (sweep m i f) := by
  intro j k hk
  unfold ShardedMap.sweep at hk
  split at hk
  · rename_i hi
    simp only [Fin.getElem_fin,Vector.getElem_set] at hk
    split at hk
    · rename_i hij
      obtain ⟨hold,_⟩ := Std.ExtHashMap.mem_filterMap.mp hk
      rw [h ⟨i,hi⟩ k hold]
      exact Fin.ext hij
    · exact h j k hk
  · exact h j k hk

end Size

end P2PForge.ShardedMap
