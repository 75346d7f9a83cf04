import Mathlib

/-! Keyed stores with background sweeps.
A store answers calls on keys. Sweeps run beside the calls: a sweep samples the clock
once, and then visits the parts of the store one at a time, so that calls may fall
between the sample and each visit. The last theorem reduces every interleaving to the
calls on a single key: when each key's entry simulates a machine of its own, the
replies to a key are the replies of that machine to that key's calls alone. -/
namespace P2PForge.KeyedSweep

/-- `ω` names the part of the store a sweep is responsible for. -/
inductive Event (κ α ω τ : Type)
  | call (key : κ) (arg : α) (now : τ)
  | sample (which : ω) (now : τ)
  | visit (sweep : ℕ)

def Event.now? {κ α ω τ : Type} : Event κ α ω τ → Option τ
  | .call _ _ now => some now
  | .sample _ now => some now
  | .visit _ => none

def Event.request? {κ α ω τ : Type} : Event κ α ω τ → Option (κ × α × τ)
  | .call key arg now => some (key,arg,now)
  | .sample _ _ => none
  | .visit _ => none

/-- `visit s w i t` is the work a sweep of `w` that sampled `t` does on part `i`. -/
structure Machine (σ κ α β ω τ : Type) where
  parts : ℕ
  call : σ → κ → α → τ → σ × β
  visit : σ → ω → ℕ → τ → σ

structure Sweep (ω τ : Type) where
  which : ω
  now : τ
  next : ℕ

structure State (σ ω τ : Type) where
  store : σ
  sweeps : List (Sweep ω τ)

structure Reply (κ α β τ : Type) where
  key : κ
  arg : α
  now : τ
  result : β

def Reply.request {κ α β τ : Type} (r : Reply κ α β τ) : κ × α × τ := (r.key,r.arg,r.now)

variable {σ κ α β ω τ ν S : Type}

def start (s : σ) : State σ ω τ := ⟨s,[]⟩

namespace Machine

variable (M : Machine σ κ α β ω τ)

def step (s : State σ ω τ) : Event κ α ω τ → State σ ω τ
  | .call k a t => {s with store := (M.call s.store k a t).1}
  | .sample w t => {s with sweeps := s.sweeps ++ [⟨w,t,0⟩]}
  | .visit j =>
    match s.sweeps[j]? with
    | none => s
    | some p =>
      if p.next < M.parts then
        ⟨M.visit s.store p.which p.next p.now,s.sweeps.set j {p with next := p.next+1}⟩
      else s

def reply (s : State σ ω τ) : Event κ α ω τ → List (Reply κ α β τ)
  | .call k a t => [⟨k,a,t,(M.call s.store k a t).2⟩]
  | .sample _ _ => []
  | .visit _ => []

def run (s : State σ ω τ) (es : List (Event κ α ω τ)) : State σ ω τ := es.foldl M.step s

def trace : State σ ω τ → List (Event κ α ω τ) → List (Reply κ α β τ)
  | _, [] => []
  | s, e::es => M.reply s e ++ trace (M.step s e) es

theorem run_append (s : State σ ω τ) (es fs : List (Event κ α ω τ)) :
    M.run s (es++fs) = M.run (M.run s es) fs := List.foldl_append ..

theorem trace_append (s : State σ ω τ) (es fs : List (Event κ α ω τ)) :
    M.trace s (es++fs) = M.trace s es ++ M.trace (M.run s es) fs := by
  induction es generalizing s with
  | nil => rfl
  | cons e es ih => simp [trace,run,ih]

end Machine

/-- The clock never goes back along the events. -/
def Clocked [LE τ] (es : List (Event κ α ω τ)) : Prop :=
  (es.filterMap Event.now?).Pairwise (· ≤ ·)

theorem Clocked.sublist [LE τ] {es fs : List (Event κ α ω τ)} (h : Clocked fs)
    (hs : List.Sublist es fs) : Clocked es :=
  List.Pairwise.sublist (hs.filterMap _) h

theorem Clocked.upTo [LE τ] {pre post : List (Event κ α ω τ)} {e : Event κ α ω τ}
    (h : Clocked (pre ++ e :: post)) : Clocked (pre ++ [e]) :=
  h.sublist (List.Sublist.append_left (List.singleton_sublist.mpr List.mem_cons_self) _)

theorem Clocked.concat [LE τ] {es : List (Event κ α ω τ)} {e : Event κ α ω τ}
    (h : Clocked (es ++ [e])) :
    Clocked es ∧ ∀ t, e.now? = some t → ∀ u ∈ es.filterMap Event.now?, u ≤ t := by
  rw [Clocked,List.filterMap_append,List.pairwise_append] at h
  refine ⟨h.1,fun t ht u hu => h.2.2 u hu t ?_⟩
  simp [ht]

def callsOf [DecidableEq κ] (k : κ) : List (Event κ α ω τ) → List (α × τ)
  | [] => []
  | .call k' a t :: es => if k' = k then (a,t) :: callsOf k es else callsOf k es
  | .sample _ _ :: es => callsOf k es
  | .visit _ :: es => callsOf k es

theorem callsOf_append [DecidableEq κ] (k : κ) (es fs : List (Event κ α ω τ)) :
    callsOf k (es++fs) = callsOf k es ++ callsOf k fs := by
  induction es with
  | nil => rfl
  | cons e es ih =>
    cases e with
    | call k' a t => by_cases h : k' = k <;> simp [callsOf,h,ih]
    | sample w t => simpa [callsOf] using ih
    | visit j => simpa [callsOf] using ih

def resultsOf [DecidableEq κ] (k : κ) (rs : List (Reply κ α β τ)) : List β :=
  (rs.filter (·.key = k)).map Reply.result

theorem resultsOf_append [DecidableEq κ] (k : κ) (rs qs : List (Reply κ α β τ)) :
    resultsOf k (rs++qs) = resultsOf k rs ++ resultsOf k qs := by
  simp [resultsOf]

theorem callsOf_eq_trace [DecidableEq κ] (M : Machine σ κ α β ω τ) (k : κ)
    (es : List (Event κ α ω τ)) (s : State σ ω τ) :
    callsOf k es = ((M.trace s es).filter (·.key = k)).map fun r => (r.arg,r.now) := by
  induction es generalizing s with
  | nil => rfl
  | cons e es ih =>
    cases e with
    | call k' a t =>
      have htail := ih (M.step s (.call k' a t))
      by_cases h : k' = k <;> simp [callsOf,Machine.trace,Machine.reply,h,htail]
    | sample w t => exact ih (M.step s (.sample w t))
    | visit j => exact ih (M.step s (.visit j))

theorem zip_callsOf_resultsOf [DecidableEq κ] (M : Machine σ κ α β ω τ) (k : κ)
    (es : List (Event κ α ω τ)) (s : State σ ω τ) :
    (callsOf k es).zip (resultsOf k (M.trace s es)) =
      ((M.trace s es).filter (·.key = k)).map fun r => ((r.arg,r.now),r.result) := by
  rw [callsOf_eq_trace M k es s,resultsOf,List.zip_map']

theorem callsOf_sorted [DecidableEq κ] [LE τ] (k : κ) {es : List (Event κ α ω τ)}
    (h : Clocked es) : ((callsOf k es).map Prod.snd).Pairwise (· ≤ ·) := by
  have hsub : List.Sublist ((callsOf k es).map Prod.snd) (es.filterMap Event.now?) := by
    clear h
    induction es with
    | nil => exact List.Sublist.refl _
    | cons e es ih =>
      cases e with
      | call k' a t =>
        by_cases h : k' = k
        · simpa [callsOf,h,Event.now?] using ih
        · simpa [callsOf,h,Event.now?] using ih.cons t
      | sample w t => simpa [callsOf,Event.now?] using ih.cons t
      | visit j => simpa [callsOf,Event.now?,List.filterMap_cons] using ih
  exact List.Pairwise.sublist hsub h

theorem mem_of_mem_callsOf [DecidableEq κ] {k : κ} {a : α} {t : τ} {es : List (Event κ α ω τ)}
    (h : (a,t) ∈ callsOf k es) : .call k a t ∈ es := by
  induction es with
  | nil => simp [callsOf] at h
  | cons e es ih =>
    cases e with
    | call k' a' t' =>
      by_cases hk : k' = k
      · simp only [callsOf,hk,if_true,List.mem_cons,Prod.mk.injEq] at h
        rcases h with ⟨rfl,rfl⟩ | h
        · simp [hk]
        · simp [ih h]
      · simp only [callsOf,hk,if_false] at h
        simp [ih h]
    | sample w t' => simp [ih h]
    | visit j => simp [ih h]

theorem trace_requests (M : Machine σ κ α β ω τ) (s : State σ ω τ) (es : List (Event κ α ω τ)) :
    (M.trace s es).map Reply.request = es.filterMap Event.request? := by
  induction es generalizing s with
  | nil => rfl
  | cons e es ih =>
    cases e <;> simp [Machine.trace,Machine.reply,Reply.request,Event.request?,
      List.filterMap_cons,ih]

theorem eq_of_resultsOf [DecidableEq κ] {rs qs : List (Reply κ α β τ)}
    (hreq : rs.map Reply.request = qs.map Reply.request)
    (h : ∀ k, resultsOf k rs = resultsOf k qs) : rs = qs := by
  induction rs generalizing qs with
  | nil => exact (List.map_eq_nil_iff.mp hreq.symm).symm
  | cons r rs ih =>
    cases qs with
    | nil => simp at hreq
    | cons q qs =>
      obtain ⟨k,a,t,x⟩ := r
      obtain ⟨k',a',t',y⟩ := q
      simp only [List.map_cons,Reply.request,List.cons.injEq,Prod.mk.injEq] at hreq
      obtain ⟨⟨rfl,rfl,rfl⟩,hreq⟩ := hreq
      have hxy : x = y := by simpa [resultsOf] using congrArg List.head? (h k)
      subst hxy
      have htail : ∀ j, resultsOf j rs = resultsOf j qs := by
        intro j
        have hj := h j
        by_cases hk : k = j
        · simpa [resultsOf,hk] using hj
        · simpa [resultsOf,hk] using hj
      rw [ih hreq htail]

/-- What calls and sweeps do to the entry of one key. -/
structure Entry (ν α β τ : Type) where
  call : Option ν → α → τ → Option ν × β
  sweep : τ → ν → Option ν

/-- A machine that serves the calls of one key and is never swept. -/
structure Single (S α β τ : Type) where
  call : S → α → τ → S × β

namespace Single

variable (A : Single S α β τ)

def results : S → List (α × τ) → List β
  | _, [] => []
  | s, (a,t)::xs => (A.call s a t).2 :: results (A.call s a t).1 xs

def final : S → List (α × τ) → S
  | s, [] => s
  | s, (a,t)::xs => final (A.call s a t).1 xs

def Along (ok : S → α → τ → Prop) : S → List (α × τ) → Prop
  | _, [] => True
  | s, (a,t)::xs => ok s a t ∧ Along ok (A.call s a t).1 xs

theorem results_append (s : S) (xs ys : List (α × τ)) :
    A.results s (xs++ys) = A.results s xs ++ A.results (A.final s xs) ys := by
  induction xs generalizing s with
  | nil => rfl
  | cons x xs ih => simp [results,final,ih]

theorem final_append (s : S) (xs ys : List (α × τ)) :
    A.final s (xs++ys) = A.final (A.final s xs) ys := by
  induction xs generalizing s with
  | nil => rfl
  | cons x xs ih => simp [final,ih]

theorem along_append (ok : S → α → τ → Prop) (s : S) (xs ys : List (α × τ)) :
    A.Along ok s (xs++ys) ↔ A.Along ok s xs ∧ A.Along ok (A.final s xs) ys := by
  induction xs generalizing s with
  | nil => simp [Along,final]
  | cons x xs ih => simp [Along,final,ih,and_assoc]

theorem results_congr [Preorder τ] (alike : τ → S → S → Prop)
    (halike : ∀ c s s' a t, alike c s s' → c ≤ t →
      (A.call s a t).2 = (A.call s' a t).2 ∧ alike t (A.call s a t).1 (A.call s' a t).1)
    (xs : List (α × τ)) {c : τ} {s s' : S} (h : alike c s s') (hc : ∀ x ∈ xs, c ≤ x.2)
    (hs : (xs.map Prod.snd).Pairwise (· ≤ ·)) : A.results s xs = A.results s' xs := by
  induction xs generalizing c s s' with
  | nil => rfl
  | cons x xs ih =>
    simp only [List.map_cons,List.pairwise_cons,List.mem_map] at hs
    obtain ⟨hres,hnext⟩ := halike c s s' x.1 x.2 h (hc x (by simp))
    simp only [results,hres,ih hnext (fun y hy => hs.1 y.2 ⟨y,hy,rfl⟩) hs.2]

theorem along_true (s : S) (xs : List (α × τ)) : A.Along (fun _ _ _ => True) s xs := by
  induction xs generalizing s with
  | nil => trivial
  | cons x xs ih => exact ⟨trivial,ih _⟩

/-- A machine as an entry that no sweep touches; a missing entry is the initial state. -/
def toEntry (x : S) : Entry S α β τ where
  call e a t := (some (A.call (e.getD x) a t).1,(A.call (e.getD x) a t).2)
  sweep _ s := some s

end Single

/-- A store whose entries are independent of each other: `view` reads the entry of a key, a
call touches the entry of its own key, and a visit sweeps an entry or leaves it alone. -/
structure Keyed (M : Machine σ κ α β ω τ) (E : κ → Entry ν α β τ) (view : σ → κ → Option ν)
    (good : σ → Prop) : Prop where
  call_good : ∀ s k a t, good s → good (M.call s k a t).1
  visit_good : ∀ s w i t, good s → good (M.visit s w i t)
  call_result : ∀ s k a t, good s → (M.call s k a t).2 = ((E k).call (view s k) a t).2
  call_view : ∀ s k a t, good s → view (M.call s k a t).1 k = ((E k).call (view s k) a t).1
  call_frame : ∀ s k a t k', good s → k' ≠ k → view (M.call s k a t).1 k' = view s k'
  visit_view : ∀ s w i t k, good s → view (M.visit s w i t) k = view s k ∨
    view (M.visit s w i t) k = (view s k).bind ((E k).sweep t)

/-- Two stores side by side, each call going to one of them, are keyed by the pair of the
key and the side. -/
theorem Keyed.halves {δ ψ : Type} {M : Machine σ κ α β ω τ} {N : Machine δ (κ × Bool) α β ψ τ}
    {E : Bool → κ → Entry ν α β τ} {view : σ → κ → Option ν} {good : Bool → σ → Prop}
    {half : δ → Bool → σ} (hM : ∀ w, Keyed M (E w) view (good w))
    (hself : ∀ d k w a t, half (N.call d (k,w) a t).1 w = (M.call (half d w) k a t).1)
    (hother : ∀ d k w a t v, v ≠ w → half (N.call d (k,w) a t).1 v = half d v)
    (hresult : ∀ d k w a t, (N.call d (k,w) a t).2 = (M.call (half d w) k a t).2)
    (hvisit : ∀ d x i t v, half (N.visit d x i t) v = half d v ∨
      ∃ y, half (N.visit d x i t) v = M.visit (half d v) y i t) :
    Keyed N (fun k => E k.2 k.1) (fun d k => view (half d k.2) k.1)
      (fun d => ∀ w, good w (half d w)) where
  call_good d k a t h v := by
    by_cases hv : v = k.2
    · rw [hv,hself]
      exact (hM _).call_good _ _ _ _ (h _)
    · rw [hother _ _ _ _ _ _ hv]
      exact h v
  visit_good d x i t h v := by
    rcases hvisit d x i t v with hv | ⟨y,hv⟩
    · exact hv ▸ h v
    · exact hv ▸ (hM v).visit_good _ _ _ _ (h v)
  call_result d k a t h := by
    rw [hresult]
    exact (hM _).call_result _ _ _ _ (h _)
  call_view d k a t h := by
    rw [hself]
    exact (hM _).call_view _ _ _ _ (h _)
  call_frame d k a t k' h hk := by
    by_cases hv : k'.2 = k.2
    · have hne : k'.1 ≠ k.1 := fun h₁ => hk (Prod.ext h₁ hv)
      simp only [hv,hself]
      exact (hM _).call_frame _ _ _ _ _ (h _) hne
    · rw [hother _ _ _ _ _ _ hv]
  visit_view d x i t k h := by
    rcases hvisit d x i t k.2 with hv | ⟨y,hv⟩
    · exact Or.inl (by rw [hv])
    · rw [hv]
      exact (hM _).visit_view _ _ _ _ _ (h _)

/-- The entry of a key simulates `A` from clock reading `c` on. A sweep may work with any
sample that is not later than the clock. -/
structure Simulates [Preorder τ] (E : Entry ν α β τ) (A : Single S α β τ)
    (ok : S → α → τ → Prop) (rel : τ → Option ν → S → Prop) : Prop where
  later : ∀ c d e s, rel c e s → c ≤ d → rel d e s
  call_result : ∀ c e s a t, rel c e s → c ≤ t → ok s a t →
    (E.call e a t).2 = (A.call s a t).2
  call_rel : ∀ c e s a t, rel c e s → c ≤ t → ok s a t → rel t (E.call e a t).1 (A.call s a t).1
  sweep_rel : ∀ c v s t, rel c (some v) s → t ≤ c → rel c (E.sweep t v) s

section Reduction

variable [Preorder τ] {M : Machine σ κ α β ω τ} {E : κ → Entry ν α β τ}
  {view : σ → κ → Option ν} {good : σ → Prop} {A : Single S α β τ} {ok : S → α → τ → Prop}
  {rel : τ → Option ν → S → Prop}

theorem Single.toEntry_simulates (A : Single S α β τ) (x : S) :
    Simulates (A.toEntry x) A (fun _ _ _ => True) (fun (_ : τ) e s => e.getD x = s) where
  later _ _ _ _ h _ := h
  call_result _ _ _ _ _ h _ _ := by rw [← h]; rfl
  call_rel _ _ _ _ _ h _ _ := by rw [← h]; rfl
  sweep_rel _ _ _ _ h _ := h

/-- The invariant of a run, for one key: the sweeps sampled the clock in the past, and the
key's entry is related to the state its own machine has reached. -/
structure Tracks (view : σ → κ → Option ν) (good : σ → Prop) (rel : τ → Option ν → S → Prop)
    (k : κ) (c : τ) (s : State σ ω τ) (x : S) : Prop where
  good : good s.store
  past : ∀ p ∈ s.sweeps, p.now ≤ c
  rel : rel c (view s.store k) x

theorem Tracks.later {k : κ} (hA : Simulates (E k) A ok rel) {c d : τ} {s : State σ ω τ} {x : S}
    (h : Tracks view good rel k c s x) (hcd : c ≤ d) : Tracks view good rel k d s x where
  good := h.good
  past p hp := (h.past p hp).trans hcd
  rel := hA.later _ _ _ _ h.rel hcd

theorem Tracks.sample {k : κ} {c : τ} {s : State σ ω τ} {x : S}
    (h : Tracks view good rel k c s x) (w : ω) :
    Tracks view good rel k c (M.step s (.sample w c)) x where
  good := h.good
  past p hp := by
    rcases List.mem_append.mp hp with hp | hp
    · exact h.past p hp
    · simp only [List.mem_singleton] at hp
      exact hp ▸ le_refl c
  rel := h.rel

theorem Tracks.visit (hM : Keyed M E view good) {k : κ} (hA : Simulates (E k) A ok rel) {c : τ}
    {s : State σ ω τ} {x : S} (h : Tracks view good rel k c s x) (j : ℕ) :
    Tracks view good rel k c (M.step s (.visit j)) x := by
  simp only [Machine.step]
  split
  · exact h
  · rename_i p hp
    have hpast := h.past p (List.mem_of_getElem? hp)
    split
    · refine ⟨hM.visit_good _ _ _ _ h.good,?_,?_⟩
      · intro q hq
        rcases List.mem_or_eq_of_mem_set hq with hq | rfl
        · exact h.past q hq
        · exact hpast
      · -- a visit either leaves the entry alone or sweeps it with a sample from the past
        have hrel := h.rel
        rcases hM.visit_view s.store p.which p.next p.now k h.good with hv | hv
        · rwa [hv]
        · rw [hv]
          cases he : view s.store k with
          | none => rwa [he] at hrel
          | some v => exact hA.sweep_rel _ _ _ _ (he ▸ hrel) hpast
    · exact h

theorem Tracks.call_other (hM : Keyed M E view good) {k k' : κ} (hA : Simulates (E k) A ok rel)
    {c t : τ} {s : State σ ω τ} {x : S} (h : Tracks view good rel k c s x) (hct : c ≤ t)
    (hk : k' ≠ k) (a : α) : Tracks view good rel k t (M.step s (.call k' a t)) x where
  good := hM.call_good _ _ _ _ h.good
  past := (h.later hA hct).past
  rel := by
    have hv := hM.call_frame s.store k' a t k h.good hk.symm
    simpa only [Machine.step,hv] using (h.later hA hct).rel

theorem Tracks.call_self (hM : Keyed M E view good) {k : κ} (hA : Simulates (E k) A ok rel)
    {c t : τ} {s : State σ ω τ} {x : S} (h : Tracks view good rel k c s x) (hct : c ≤ t)
    {a : α} (hok : ok x a t) :
    Tracks view good rel k t (M.step s (.call k a t)) (A.call x a t).1 where
  good := hM.call_good _ _ _ _ h.good
  past := (h.later hA hct).past
  rel := by
    have hv := hM.call_view s.store k a t h.good
    simpa only [Machine.step,hv] using hA.call_rel _ _ _ _ _ h.rel hct hok

theorem Tracks.run [DecidableEq κ] (hM : Keyed M E view good) {k : κ}
    (hA : Simulates (E k) A ok rel) {es : List (Event κ α ω τ)} {c d : τ} {s : State σ ω τ} {x : S}
    (h : Tracks view good rel k c s x) (hes : Clocked es)
    (hc : ∀ t ∈ es.filterMap Event.now?, c ≤ t) (hd : ∀ t ∈ es.filterMap Event.now?, t ≤ d)
    (hcd : c ≤ d) (hok : A.Along ok x (callsOf k es)) :
    Tracks view good rel k d (M.run s es) (A.final x (callsOf k es)) := by
  induction es generalizing c s x with
  | nil => exact h.later hA hcd
  | cons e es ih =>
    cases e with
    | call k' a t =>
      simp only [Clocked,List.filterMap_cons,Event.now?,List.pairwise_cons] at hes
      simp only [List.filterMap_cons,Event.now?,List.forall_mem_cons] at hc hd
      by_cases hk : k' = k
      · subst hk
        simp only [callsOf,if_true,Single.Along,Single.final] at hok ⊢
        exact ih (h.call_self hM hA hc.1 hok.1) hes.2 hes.1 hd.2 hd.1 hok.2
      · simp only [callsOf,if_neg hk] at hok ⊢
        exact ih (h.call_other hM hA hc.1 hk a) hes.2 hes.1 hd.2 hd.1 hok
    | sample w t =>
      simp only [Clocked,List.filterMap_cons,Event.now?,List.pairwise_cons] at hes
      simp only [List.filterMap_cons,Event.now?,List.forall_mem_cons] at hc hd
      exact ih ((h.later hA hc.1).sample w) hes.2 hes.1 hd.2 hd.1 hok
    | visit j =>
      simp only [List.filterMap_cons,Event.now?] at hc hd
      exact ih (h.visit hM hA j) hes hc hd hcd hok

/-- Every interleaving reduces to the calls of one key: the other keys, the sweeps and the
layout of the store are invisible in its results. -/
theorem resultsOf_trace [DecidableEq κ] (hM : Keyed M E view good) {k : κ}
    (hA : Simulates (E k) A ok rel) (es : List (Event κ α ω τ)) (c : τ) (s : State σ ω τ) (x : S)
    (h : Tracks view good rel k c s x) (hes : Clocked es)
    (hc : ∀ t ∈ es.filterMap Event.now?, c ≤ t) (hok : A.Along ok x (callsOf k es)) :
    resultsOf k (M.trace s es) = A.results x (callsOf k es) := by
  -- from the end: the last event is answered in a state in which the invariant holds
  induction es using List.reverseRecOn with
  | nil => rfl
  | append_singleton es e ih =>
    obtain ⟨hes',hlast⟩ := hes.concat
    rw [callsOf_append,Single.along_append] at hok
    simp only [List.filterMap_append,List.forall_mem_append] at hc
    rw [Machine.trace_append,resultsOf_append,ih hes' hc.1 hok.1,callsOf_append,
      Single.results_append]
    congr 1
    cases e with
    | call k' a t =>
      by_cases hk : k' = k
      · subst hk
        simp only [callsOf,if_true,Single.Along] at hok
        have hct : c ≤ t := hc.2 t (by simp [Event.now?])
        have hend := h.run hM hA hes' hc.1 (hlast t rfl) hct hok.1
        have hres : (M.call (M.run s es).store k' a t).2 =
            (A.call (A.final x (callsOf k' es)) a t).2 := by
          rw [hM.call_result _ _ _ _ hend.good]
          exact hA.call_result _ _ _ _ _ hend.rel le_rfl hok.2.1
        simp [Machine.trace,Machine.reply,resultsOf,callsOf,Single.results,hres]
      · simp [Machine.trace,Machine.reply,resultsOf,callsOf,Single.results,hk]
    | sample w t => rfl
    | visit j => rfl

/-- A property of every call of a run, in the state the call is made. -/
def Machine.Always (M : Machine σ κ α β ω τ) (P : σ → κ → α → τ → Prop) :
    State σ ω τ → List (Event κ α ω τ) → Prop
  | _, [] => True
  | s, e::es => (∀ k a t, e = .call k a t → P s.store k a t) ∧ M.Always P (M.step s e) es

omit [Preorder τ] in
theorem Machine.always_append (M : Machine σ κ α β ω τ) (P : σ → κ → α → τ → Prop)
    (s : State σ ω τ) (es fs : List (Event κ α ω τ)) :
    M.Always P s (es ++ fs) ↔ M.Always P s es ∧ M.Always P (M.run s es) fs := by
  induction es generalizing s with
  | nil => simp [Machine.Always,Machine.run]
  | cons e es ih => simp [Machine.Always,Machine.run,ih,and_assoc]

omit [Preorder τ] in
/-- Two properties of calls that mean the same wherever an invariant holds, which every call with
the first property keeps, mean the same along a whole run. -/
theorem Machine.always_iff {P Q : σ → κ → α → τ → Prop} {inv : σ → Prop}
    (hiff : ∀ s k a t, inv s → (P s k a t ↔ Q s k a t))
    (hcall : ∀ s k a t, inv s → P s k a t → inv (M.call s k a t).1)
    (hvisit : ∀ s w i t, inv s → inv (M.visit s w i t)) (es : List (Event κ α ω τ))
    {s : State σ ω τ} (h : inv s.store) : M.Always P s es ↔ M.Always Q s es := by
  induction es generalizing s with
  | nil => exact Iff.rfl
  | cons e es ih =>
    cases e with
    | call k a t =>
      have hhead : (∀ k' a' t', (Event.call k a t : Event κ α ω τ) = .call k' a' t' →
          P s.store k' a' t') ↔ ∀ k' a' t', (Event.call k a t : Event κ α ω τ) = .call k' a' t' →
          Q s.store k' a' t' := by
        refine forall_congr' fun k' => forall_congr' fun a' => forall_congr' fun t' => ?_
        exact imp_congr_right fun _ => hiff _ _ _ _ h
      simp only [Machine.Always]
      rw [← hhead]
      exact and_congr_right fun hp => ih (hcall _ _ _ _ h (hp k a t rfl))
    | sample w t =>
      simp only [Machine.Always,reduceCtorEq,false_implies,implies_true,true_and]
      exact ih h
    | visit j =>
      simp only [Machine.Always,reduceCtorEq,false_implies,implies_true,true_and]
      apply ih
      simp only [Machine.step]
      split
      · exact h
      · split
        · exact hvisit _ _ _ _ h
        · exact h

theorem along_of_always [DecidableEq κ] (hM : Keyed M E view good) {k : κ}
    (hA : Simulates (E k) A ok rel) {P : σ → κ → α → τ → Prop}
    (hP : ∀ c s x a t, good s → rel c (view s k) x → c ≤ t → P s k a t → ok x a t)
    (es : List (Event κ α ω τ)) (c : τ) (s : State σ ω τ) (x : S)
    (h : Tracks view good rel k c s x) (hes : Clocked es)
    (hc : ∀ t ∈ es.filterMap Event.now?, c ≤ t) (hall : M.Always P s es) :
    A.Along ok x (callsOf k es) := by
  induction es using List.reverseRecOn with
  | nil => trivial
  | append_singleton es e ih =>
    obtain ⟨hes',hlast⟩ := hes.concat
    rw [Machine.always_append] at hall
    simp only [List.filterMap_append,List.forall_mem_append] at hc
    have hok := ih hes' hc.1 hall.1
    rw [callsOf_append,Single.along_append]
    refine ⟨hok,?_⟩
    cases e with
    | call k' a t =>
      by_cases hk : k' = k
      · subst hk
        have hct : c ≤ t := hc.2 t (by simp [Event.now?])
        have hend := h.run hM hA hes' hc.1 (hlast t rfl) hct hok
        simp only [callsOf,if_true]
        exact ⟨hP t _ _ a t hend.good hend.rel le_rfl (hall.2.1 k' a t rfl),trivial⟩
      · simp only [callsOf,if_neg hk]
        trivial
    | sample w t => trivial
    | visit j => trivial

/-- From `s`, the results of `k` on every run are those of a machine of its own. -/
def Reduces [DecidableEq κ] (M : Machine σ κ α β ω τ) (s : State σ ω τ) (k : κ)
    (A : Single S α β τ) (ok : S → α → τ → Prop) (x : S) : Prop :=
  ∀ es : List (Event κ α ω τ), Clocked es → A.Along ok x (callsOf k es) →
    resultsOf k (M.trace s es) = A.results x (callsOf k es)

theorem Tracks.reduces [DecidableEq κ] (hM : Keyed M E view good) {k : κ}
    (hA : Simulates (E k) A ok rel) {c : τ} (hc : ∀ t, c ≤ t) {s : State σ ω τ} {x : S}
    (h : Tracks view good rel k c s x) : Reduces M s k A ok x :=
  fun es hes hok => resultsOf_trace hM hA es c s x h hes (fun t _ => hc t) hok

theorem Reduces.tail [DecidableEq κ] {k : κ} {s : State σ ω τ} {x : S}
    (h : Reduces M s k A ok x) (es fs : List (Event κ α ω τ)) (hes : Clocked (es++fs))
    (hok : A.Along ok x (callsOf k (es++fs))) :
    resultsOf k (M.trace (M.run s es) fs) =
      A.results (A.final x (callsOf k es)) (callsOf k fs) := by
  have hall := h _ hes hok
  rw [callsOf_append,Single.along_append] at hok
  have hpre := h es (hes.sublist (List.sublist_append_left _ _)) hok.1
  rw [Machine.trace_append,resultsOf_append,hpre,callsOf_append,Single.results_append] at hall
  exact List.append_cancel_left hall

theorem Reduces.call_run [DecidableEq κ] {k : κ} {s : State σ ω τ} {x : S}
    (h : Reduces M s k A ok x) (es : List (Event κ α ω τ)) (a : α) (t : τ)
    (hes : Clocked (es ++ [Event.call k a t]))
    (hok : A.Along ok x (callsOf k (es ++ [Event.call k a t]))) :
    (M.call (M.run s es).store k a t).2 = (A.call (A.final x (callsOf k es)) a t).2 := by
  simpa [Machine.trace,Machine.reply,resultsOf,callsOf,Single.results] using h.tail es _ hes hok

/-- A call may be struck from a run when its key's own machine, from the states with and
without the call, answers the rest alike. -/
theorem trace_erase [DecidableEq κ] {A : κ → Single S α β τ} {ok : κ → S → α → τ → Prop}
    {s : State σ ω τ} {x : κ → S} (h : ∀ j, Reduces M s j (A j) (ok j) (x j))
    (pre post : List (Event κ α ω τ)) (k : κ) (a : α) (t : τ)
    (hes : Clocked (pre ++ Event.call k a t :: post))
    (hok : ∀ j, (A j).Along (ok j) (x j) (callsOf j (pre ++ Event.call k a t :: post)))
    (hok' : (A k).Along (ok k) ((A k).final (x k) (callsOf k pre)) (callsOf k post))
    (hsame : (A k).results ((A k).call ((A k).final (x k) (callsOf k pre)) a t).1 (callsOf k post) =
      (A k).results ((A k).final (x k) (callsOf k pre)) (callsOf k post)) :
    M.trace s (pre++post) =
      (M.trace s (pre ++ Event.call k a t :: post)).eraseIdx (M.trace s pre).length := by
  have hsplit : pre ++ Event.call k a t :: post = (pre ++ [Event.call k a t]) ++ post := by simp
  have hshort : Clocked (pre++post) :=
    hes.sublist (List.Sublist.append_left (List.sublist_cons_self _ _) _)
  have herase : (M.trace s (pre ++ Event.call k a t :: post)).eraseIdx (M.trace s pre).length =
      M.trace s pre ++ M.trace (M.run s (pre ++ [Event.call k a t])) post := by
    rw [Machine.trace_append,List.eraseIdx_append_of_length_le (le_refl _),Nat.sub_self,
      Machine.run_append]
    rfl
  rw [herase,Machine.trace_append,List.append_cancel_left_eq]
  refine eq_of_resultsOf (by simp only [trace_requests]) fun j => ?_
  have hwith := (h j).tail (pre ++ [Event.call k a t]) post (hsplit ▸ hes) (hsplit ▸ hok j)
  rw [callsOf_append,Single.final_append] at hwith
  by_cases hj : k = j
  · subst hj
    have hokpre : (A k).Along (ok k) (x k) (callsOf k (pre++post)) := by
      have hfull := hok k
      rw [callsOf_append,Single.along_append] at hfull ⊢
      exact ⟨hfull.1,hok'⟩
    rw [(h k).tail pre post hshort hokpre,hwith,← hsame]
    simp [callsOf,Single.final]
  · have hcalls : callsOf j [(Event.call k a t : Event κ α ω τ)] = [] := by simp [callsOf,hj]
    have hokpre : (A j).Along (ok j) (x j) (callsOf j (pre++post)) := by
      have hfull := hok j
      rw [hsplit] at hfull
      simpa only [callsOf_append,hcalls,List.append_nil] using hfull
    rw [(h j).tail pre post hshort hokpre,hwith,hcalls]
    rfl

end Reduction

end P2PForge.KeyedSweep
