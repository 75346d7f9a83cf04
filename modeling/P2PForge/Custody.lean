import Mathlib

/-! Custody of numbered resources.
Workers make resources one at a time, hold them in hand, put them into a table, take them out
again and end them; what is dropped on the way is lost. A sweep goes through keys of the table and
takes what it finds under each of them in hand, while the others go on. Every resource made so far
is then ended, in a hand, excused, or still in the table under a key that is due. -/
namespace P2PForge.Custody

variable {K L : Type}

/-- How many resources were made, what the table holds, and what was ended. -/
structure Store (K : Type) where
  made : ℕ
  table : K → Option ℕ
  ended : List ℕ

inductive Note
  | lost (t : ℕ)
  | stored (t : ℕ)
  deriving DecidableEq

/-- A step of a worker, from the store and the hand before to those after, and what is noted. -/
inductive Move [DecidableEq K] (s : Store K) : Option ℕ → Store K → Option ℕ → List Note → Prop
  | keep {h} : Move s h s h []
  | make : Move s none { s with made := s.made + 1 } (some s.made) []
  | put {k t} : s.table k = none →
    Move s (some t) { s with table := Function.update s.table k (some t) } none [.stored t]
  | take {k t} : s.table k = some t →
    Move s none { s with table := Function.update s.table k none } (some t) []
  | finish {t} : Move s (some t) { s with ended := t :: s.ended } none []
  | drop {t} : Move s (some t) s none [.lost t]

inductive Place (s : Store K) (hand : L → Option ℕ) (ls : List L) (excused : ℕ → Prop)
    (due : K → Prop) (t : ℕ) : Prop
  | ended : t ∈ s.ended → Place s hand ls excused due t
  | held {l} : l ∈ ls → hand l = some t → Place s hand ls excused due t
  | excused : excused t → Place s hand ls excused due t
  | due {k} : due k → s.table k = some t → Place s hand ls excused due t

/-- Every resource made so far has its place. -/
def Accounted (s : Store K) (hand : L → Option ℕ) (ls : List L) (excused : ℕ → Prop)
    (due : K → Prop) : Prop :=
  ∀ t < s.made, Place s hand ls excused due t

variable {s s' : Store K} {hand : L → Option ℕ} {ls : List L} {excused excused' : ℕ → Prop}
  {due due' : K → Prop}

theorem Accounted.mono (v : Accounted s hand ls excused due) (he : ∀ t, excused t → excused' t)
    (hdue : ∀ k, due k → (s.table k).isSome → due' k) : Accounted s hand ls excused' due' := by
  intro t ht
  cases v t ht with
  | ended hended => exact .ended hended
  | held hl hhand => exact .held hl hhand
  | excused hexcused => exact .excused (he t hexcused)
  | due hk htable => exact .due (hdue _ hk (Option.isSome_of_mem htable)) htable

theorem Accounted.spawn (v : Accounted s hand ls excused due) (l : L) :
    Accounted s hand (ls ++ [l]) excused due := by
  intro t ht
  cases v t ht with
  | ended hended => exact .ended hended
  | held hm hhand => exact .held (List.mem_append_left _ hm) hhand
  | excused hexcused => exact .excused hexcused
  | due hk htable => exact .due hk htable

section Step

variable {i : ℕ} {l l' : L}

/-- A step of one worker keeps the account if it has a place for what is new, for what the worker
had in hand and for what was due in the table. -/
theorem Accounted.step (v : Accounted s hand ls excused due) (hi : ls[i]? = some l)
    (hended : s.ended ⊆ s'.ended) (he : ∀ t, excused t → excused' t)
    (hnew : ∀ t, s.made ≤ t → t < s'.made → Place s' hand (ls.set i l') excused' due' t)
    (hhand : ∀ t, hand l = some t → Place s' hand (ls.set i l') excused' due' t)
    (htable : ∀ t k, due k → s.table k = some t → Place s' hand (ls.set i l') excused' due' t) :
    Accounted s' hand (ls.set i l') excused' due' := by
  intro t ht
  rcases Nat.lt_or_ge t s.made with hlt | hge
  · cases v t hlt with
    | ended h => exact .ended (hended h)
    | @held m hm hmt =>
      obtain ⟨j,hj⟩ := List.mem_iff_getElem?.mp hm
      by_cases hji : j = i
      · subst hji
        obtain rfl := Option.some.inj (hj.symm.trans hi)
        exact hhand t hmt
      · exact .held (List.mem_of_getElem? ((List.getElem?_set_ne (Ne.symm hji)).trans hj)) hmt
    | excused h => exact .excused (he t h)
    | due hk h => exact htable t _ hk h
  · exact hnew t hge ht

theorem held_self (hi : ls[i]? = some l) {t : ℕ} (h : hand l' = some t) :
    Place s hand (ls.set i l') excused due t := by
  obtain ⟨hlt,_⟩ := List.getElem?_eq_some_iff.mp hi
  exact .held (List.mem_of_getElem? (List.getElem?_set_self hlt)) h

/-- A step accounts for all that it moves: what it loses is excused, and so is what it stores,
unless all keys are due. -/
theorem Accounted.move [DecidableEq K] (v : Accounted s hand ls excused due)
    (hi : ls[i]? = some l) {notes : List Note} (hmove : Move s (hand l) s' (hand l') notes)
    (he : ∀ t, excused t → excused' t) (hlost : ∀ t, .lost t ∈ notes → excused' t)
    (hstored : ∀ t, .stored t ∈ notes → excused' t ∨ ∀ k, due k) :
    Accounted s' hand (ls.set i l') excused' due := by
  generalize hold : hand l = h at hmove
  generalize hnew : hand l' = h' at hmove
  cases hmove with
  | keep =>
    refine v.step hi (fun _ => id) he (fun t hge hlt => absurd hlt hge.not_gt) ?_
      fun t k hk h => .due hk h
    exact fun t ht => held_self hi (hnew.trans (hold.symm.trans ht))
  | make =>
    refine v.step hi (fun _ => id) he ?_ ?_ fun t k hk h => .due hk h
    · intro t hge hlt
      obtain rfl : t = s.made := Nat.le_antisymm (Nat.lt_succ_iff.mp hlt) hge
      exact held_self hi hnew
    · intro t ht
      cases hold.symm.trans ht
  | @put k u hempty =>
    refine v.step hi (fun _ => id) he (fun t hge hlt => absurd hlt hge.not_gt) ?_ ?_
    · intro t ht
      obtain rfl := Option.some.inj (hold.symm.trans ht)
      rcases hstored u (List.mem_singleton_self _) with hexcused | hall
      · exact .excused hexcused
      · exact .due (hall k) (Function.update_self ..)
    · intro t k' hk' htable
      have hne : k' ≠ k := by
        rintro rfl
        cases hempty.symm.trans htable
      exact .due hk' ((Function.update_of_ne hne _ _).trans htable)
  | @take k u htaken =>
    refine v.step hi (fun _ => id) he (fun t hge hlt => absurd hlt hge.not_gt) ?_ ?_
    · intro t ht
      cases hold.symm.trans ht
    · intro t k' hk' htable
      by_cases hkey : k' = k
      · subst hkey
        exact held_self hi (hnew.trans (htaken.symm.trans htable))
      · exact .due hk' ((Function.update_of_ne hkey _ _).trans htable)
  | @finish u =>
    refine v.step hi (List.subset_cons_self _ _) he (fun t hge hlt => absurd hlt hge.not_gt) ?_
      fun t k hk h => .due hk h
    intro t ht
    obtain rfl := Option.some.inj (hold.symm.trans ht)
    exact .ended (.head _)
  | @drop u =>
    refine v.step hi (fun _ => id) he (fun t hge hlt => absurd hlt hge.not_gt) ?_
      fun t k hk h => .due hk h
    intro t ht
    obtain rfl := Option.some.inj (hold.symm.trans ht)
    exact .excused (hlost _ (List.mem_singleton_self _))

theorem Accounted.look {k : K} (v : Accounted s hand ls excused due) (hi : ls[i]? = some l)
    (hempty : hand l = none) (hfound : hand l' = s.table k)
    (hdue : ∀ k', due k' → k' = k ∨ due' k') : Accounted s hand (ls.set i l') excused due' := by
  refine v.step hi (fun _ => id) (fun _ => id) (fun t hge hlt => absurd hlt hge.not_gt) ?_ ?_
  · intro t ht
    cases hempty.symm.trans ht
  · intro t k' hk' htable
    rcases hdue k' hk' with rfl | hstill
    · exact held_self hi (hfound.trans htable)
    · exact .due hstill htable

end Step
end P2PForge.Custody
