import Mathlib

/-! Threads that take atomic steps on a shared state, in any interleaving.
An event starts a thread or lets one take its next step; a thread that is blocked or done
stays as it is. Locks are read off the threads: whoever stands inside a critical section
holds its lock, and a program that only enters through a free lock keeps every lock with one
holder. -/
namespace P2PForge.Interleaving

variable {S L A : Type}

structure System (S L : Type) where
  shared : S
  threads : List L

/-- A thread starts in a given state, or the thread at a position takes a step to which the
environment answers with `a`. -/
inductive Event (L A : Type)
  | spawn (l : L)
  | advance (i : ℕ) (a : A)

theorem getElem?_concat {ls : List L} {l m : L} {i : ℕ} (h : (ls ++ [l])[i]? = some m) :
    ls[i]? = some m ∨ i = ls.length ∧ m = l := by
  rcases Nat.lt_or_ge i ls.length with hlt | hge
  · rw [List.getElem?_append_left hlt] at h
    exact .inl h
  · rw [List.getElem?_append_right hge,List.getElem?_singleton] at h
    split_ifs at h with hi
    · exact .inr ⟨by omega,(Option.some.inj h).symm⟩

theorem getElem?_set_of_some {ls : List L} {l l' m : L} {i j : ℕ} (hi : ls[i]? = some l)
    (h : (ls.set i l')[j]? = some m) : j = i ∧ m = l' ∨ j ≠ i ∧ ls[j]? = some m := by
  obtain ⟨hlt,_⟩ := List.getElem?_eq_some_iff.mp hi
  by_cases hji : j = i
  · subst hji
    rw [List.getElem?_set_self hlt] at h
    exact .inl ⟨rfl,(Option.some.inj h).symm⟩
  · rw [List.getElem?_set_ne (Ne.symm hji)] at h
    exact .inr ⟨hji,h⟩

theorem countP_set (p : L → Bool) {ls : List L} {l : L} {i : ℕ} (hi : ls[i]? = some l) (l' : L) :
    (ls.set i l').countP p + (p l).toNat = ls.countP p + (p l').toNat := by
  induction ls generalizing i with
  | nil => cases hi
  | cons m ls ih =>
    cases i with
    | zero =>
      obtain rfl : m = l := Option.some.inj hi
      cases hm : p m <;> cases hl : p l' <;> simp [hm,hl]
    | succ i =>
      have htail := ih hi
      rw [List.set_cons_succ,List.countP_cons,List.countP_cons]
      omega

theorem sum_map_set (f : L → ℕ) {ls : List L} {l : L} {i : ℕ} (hi : ls[i]? = some l) (l' : L) :
    ((ls.set i l').map f).sum + f l = (ls.map f).sum + f l' := by
  induction ls generalizing i with
  | nil => cases hi
  | cons m ls ih =>
    cases i with
    | zero =>
      obtain rfl : m = l := Option.some.inj hi
      rw [List.set_cons_zero,List.map_cons,List.map_cons,List.sum_cons,List.sum_cons]
      omega
    | succ i =>
      have htail := ih hi
      rw [List.set_cons_succ,List.map_cons,List.map_cons,List.sum_cons,List.sum_cons]
      omega

section Run

variable (prog : S → L → A → Option (S × L))

def step (sys : System S L) : Event L A → System S L
  | .spawn l => { sys with threads := sys.threads ++ [l] }
  | .advance i a =>
    match sys.threads[i]? with
    | none => sys
    | some l =>
      match prog sys.shared l a with
      | none => sys
      | some (s',l') => ⟨s',sys.threads.set i l'⟩

def run (sys : System S L) (es : List (Event L A)) : System S L := es.foldl (step prog) sys

/-- The property holds in the first state of a run and in every state it reaches. -/
def Throughout (P : System S L → Prop) : System S L → List (Event L A) → Prop
  | sys,[] => P sys
  | sys,e :: es => P sys ∧ Throughout P (step prog sys e) es

/-- Every step of a run meets the condition in the state it is taken from. -/
def EachStep (C : System S L → Event L A → Prop) : System S L → List (Event L A) → Prop
  | _,[] => True
  | sys,e :: es => C sys e ∧ EachStep C (step prog sys e) es

/-- All an event can do: nothing, start a thread, or one step of one thread. -/
theorem step_cases (sys : System S L) (e : Event L A) :
    step prog sys e = sys ∨
      (∃ l, e = .spawn l ∧ step prog sys e = { sys with threads := sys.threads ++ [l] }) ∨
      ∃ i a l s' l', e = .advance i a ∧ sys.threads[i]? = some l ∧
        prog sys.shared l a = some (s',l') ∧ step prog sys e = ⟨s',sys.threads.set i l'⟩ := by
  cases e with
  | spawn l => exact .inr (.inl ⟨l,rfl,rfl⟩)
  | advance i a =>
    cases hi : sys.threads[i]? with
    | none => exact .inl (by simp only [step,hi])
    | some l =>
      rcases hprog : prog sys.shared l a with _ | ⟨s',l'⟩
      · exact .inl (by simp only [step,hi,hprog])
      · exact .inr (.inr ⟨i,a,l,s',l',rfl,hi,hprog,by simp only [step,hi,hprog]⟩)

variable {prog}

/-- What a thread has from its start, and keeps in its own steps and in those of the others, all
threads keep. -/
theorem forall_threads_step {P : S → L → Prop} {sys : System S L} {e : Event L A}
    (h : ∀ l ∈ sys.threads, P sys.shared l) (hspawn : ∀ l, e = .spawn l → P sys.shared l)
    (hself : ∀ {i a l s' l'}, e = .advance i a → sys.threads[i]? = some l →
      prog sys.shared l a = some (s',l') → P s' l')
    (hother : ∀ {l a s' l'}, prog sys.shared l a = some (s',l') →
      ∀ m, P sys.shared m → P s' m) :
    ∀ l ∈ (step prog sys e).threads, P (step prog sys e).shared l := by
  intro m hm
  rcases step_cases prog sys e with hsame | ⟨l,rfl,hstep⟩ | ⟨i,a,l,s',l',rfl,hi,hprog,hstep⟩
  · rw [hsame] at hm ⊢
    exact h m hm
  · rw [hstep] at hm ⊢
    rcases List.mem_append.mp hm with hold | hnew
    · exact h m hold
    · exact hspawn m (by rw [List.mem_singleton.mp hnew])
  · rw [hstep] at hm ⊢
    rcases List.mem_or_eq_of_mem_set hm with hold | rfl
    · exact hother hprog m (h m hold)
    · exact hself rfl hi hprog

theorem Throughout.first {P : System S L → Prop} {sys : System S L} {es : List (Event L A)}
    (h : Throughout prog P sys es) : P sys := by
  cases es with
  | nil => exact h
  | cons e es => exact h.1

theorem invariant_run {Inv : System S L → Prop} {Allowed : Event L A → Prop}
    (hstep : ∀ sys e, Inv sys → Allowed e → Inv (step prog sys e)) {sys : System S L}
    (hsys : Inv sys) {es : List (Event L A)} (hes : ∀ e ∈ es, Allowed e) :
    Inv (run prog sys es) := by
  induction es generalizing sys with
  | nil => exact hsys
  | cons e es ih =>
    obtain ⟨he,htail⟩ := List.forall_mem_cons.mp hes
    exact ih (hstep sys e hsys he) htail

theorem run_concat (sys : System S L) (es : List (Event L A)) (e : Event L A) :
    run prog sys (es ++ [e]) = step prog (run prog sys es) e := List.foldl_concat ..

theorem length_threads_step (sys : System S L) (e : Event L A) :
    sys.threads.length ≤ (step prog sys e).threads.length := by
  rcases step_cases prog sys e with hsame | ⟨l,_,hstep⟩ | ⟨i,a,l,s',l',_,_,_,hstep⟩
  · rw [hsame]
  · simp [hstep]
  · simp [hstep]

theorem length_threads_run (sys : System S L) (es : List (Event L A)) :
    sys.threads.length ≤ (run prog sys es).threads.length := by
  induction es generalizing sys with
  | nil => exact le_rfl
  | cons e es ih => exact (length_threads_step sys e).trans (ih (step prog sys e))

theorem thread_step {sys : System S L} {e : Event L A} {i : ℕ} (hi : i < sys.threads.length)
    {m : L} (hm : (step prog sys e).threads[i]? = some m) :
    sys.threads[i]? = some m ∨ ∃ a l s', e = .advance i a ∧ sys.threads[i]? = some l ∧
      prog sys.shared l a = some (s',m) ∧ (step prog sys e).shared = s' := by
  rcases step_cases prog sys e with hsame | ⟨l,_,hstep⟩ | ⟨j,a,l,s',l',he,hj,hprog,hstep⟩
  · rw [hsame] at hm
    exact .inl hm
  · rw [hstep] at hm
    exact .inl ((List.getElem?_append_left hi).symm.trans hm)
  · rw [hstep] at hm
    rcases getElem?_set_of_some hj hm with ⟨rfl,rfl⟩ | ⟨_,hold⟩
    · exact .inr ⟨a,l,s',he,hj,hprog,by rw [hstep]⟩
    · exact .inl hold

/-- The rule for following one thread: what holds of it at first, goes on to hold when others move
and is passed on by its own steps, holds of it after every run. -/
theorem thread_run {T : List (Event L A) → L → Prop} {sys : System S L} {i : ℕ}
    (hi : i < sys.threads.length) (hfirst : ∀ l, sys.threads[i]? = some l → T [] l)
    (hother : ∀ es e l, T es l → T (es ++ [e]) l)
    (hself : ∀ es a l s' l', (run prog sys es).threads[i]? = some l →
      prog (run prog sys es).shared l a = some (s',l') → T es l → T (es ++ [.advance i a]) l')
    (es : List (Event L A)) : ∀ l, (run prog sys es).threads[i]? = some l → T es l := by
  induction es using List.reverseRecOn with
  | nil => exact hfirst
  | append_singleton es e ih =>
    intro m hm
    rw [run_concat] at hm
    have hlt : i < (run prog sys es).threads.length := hi.trans_le (length_threads_run sys es)
    rcases thread_step hlt hm with hold | ⟨a,l,s',rfl,hl,hprog,_⟩
    · exact hother es e m (ih m hold)
    · exact hself es a l s' m hl hprog (ih l hl)

theorem eachStep_of_forall {Allowed : Event L A → Prop} {sys : System S L}
    {es : List (Event L A)} (hes : ∀ e ∈ es, Allowed e) :
    EachStep prog (fun _ e => Allowed e) sys es := by
  induction es generalizing sys with
  | nil => trivial
  | cons e es ih =>
    obtain ⟨he,htail⟩ := List.forall_mem_cons.mp hes
    exact ⟨he,ih htail⟩

theorem invariant_of_eachStep {Inv : System S L → Prop} {C : System S L → Event L A → Prop}
    (hstep : ∀ sys e, Inv sys → C sys e → Inv (step prog sys e)) {sys : System S L}
    (hsys : Inv sys) {es : List (Event L A)} (hes : EachStep prog C sys es) :
    Inv (run prog sys es) := by
  induction es generalizing sys with
  | nil => exact hsys
  | cons e es ih => exact ih (hstep sys e hsys hes.1) hes.2

theorem EachStep.and {C D : System S L → Event L A → Prop} {sys : System S L}
    {es : List (Event L A)} (hC : EachStep prog C sys es) (hD : EachStep prog D sys es) :
    EachStep prog (fun sys e => C sys e ∧ D sys e) sys es := by
  induction es generalizing sys with
  | nil => trivial
  | cons e es ih => exact ⟨⟨hC.1,hD.1⟩,ih hC.2 hD.2⟩

theorem eachStep_append {C : System S L → Event L A → Prop} {sys : System S L}
    {es es' : List (Event L A)} : EachStep prog C sys (es ++ es') ↔
      EachStep prog C sys es ∧ EachStep prog C (run prog sys es) es' := by
  induction es generalizing sys with
  | nil => exact (iff_of_eq (true_and _)).symm
  | cons e es ih =>
    rw [List.cons_append,EachStep,EachStep,ih,and_assoc]
    rfl

/-- If, under an invariant, exactly the steps that meet a condition keep a property, then the
property holds throughout exactly those runs whose steps all meet the condition. -/
theorem throughout_iff_eachStep {Inv Good : System S L → Prop} {Allowed : Event L A → Prop}
    {C : System S L → Event L A → Prop}
    (hinv : ∀ sys e, Inv sys → Allowed e → Inv (step prog sys e))
    (hgood : ∀ sys e, Inv sys → Allowed e → Good sys → (Good (step prog sys e) ↔ C sys e))
    {sys : System S L} (hsys : Inv sys) (hfirst : Good sys) {es : List (Event L A)}
    (hes : ∀ e ∈ es, Allowed e) :
    Throughout prog Good sys es ↔ EachStep prog C sys es := by
  induction es generalizing sys with
  | nil => exact iff_of_true hfirst trivial
  | cons e es ih =>
    obtain ⟨he,htail⟩ := List.forall_mem_cons.mp hes
    have hnext := hinv sys e hsys he
    have hkeep := hgood sys e hsys he hfirst
    constructor
    · rintro ⟨_,hrest⟩
      exact ⟨hkeep.mp hrest.first,(ih hnext hrest.first htail).mp hrest⟩
    · rintro ⟨hc,hrest⟩
      exact ⟨hfirst,(ih hnext (hkeep.mpr hc) htail).mpr hrest⟩

section Trace

variable {O : Type} (prog) (observe : S → L → A → List O)

def observed (sys : System S L) : Event L A → List O
  | .spawn _ => []
  | .advance i a => (sys.threads[i]?.map fun l => observe sys.shared l a).getD []

def trace : System S L → List (Event L A) → List O
  | _,[] => []
  | sys,e :: es => observed observe sys e ++ trace (step prog sys e) es

variable {prog observe}

theorem observed_cases (hblocked : ∀ {s l a}, prog s l a = none → observe s l a = [])
    (sys : System S L) (e : Event L A) :
    (step prog sys e = sys ∧ observed observe sys e = []) ∨
      (∃ l, e = .spawn l ∧ step prog sys e = { sys with threads := sys.threads ++ [l] } ∧
        observed observe sys e = []) ∨
      ∃ i a l s' l', e = .advance i a ∧ sys.threads[i]? = some l ∧
        prog sys.shared l a = some (s',l') ∧ step prog sys e = ⟨s',sys.threads.set i l'⟩ ∧
        observed observe sys e = observe sys.shared l a := by
  cases e with
  | spawn l => exact .inr (.inl ⟨l,rfl,rfl,rfl⟩)
  | advance i a =>
    cases hi : sys.threads[i]? with
    | none => exact .inl ⟨by simp only [step,hi],by simp [observed,hi]⟩
    | some l =>
      have hseen : observed observe sys (.advance i a) = observe sys.shared l a := by
        simp [observed,hi]
      rcases hprog : prog sys.shared l a with _ | ⟨s',l'⟩
      · exact .inl ⟨by simp only [step,hi,hprog],hseen.trans (hblocked hprog)⟩
      · exact .inr (.inr ⟨i,a,l,s',l',rfl,hi,hprog,by simp only [step,hi,hprog],hseen⟩)

theorem invariant_trace_of_eachStep {Inv : List O → System S L → Prop}
    {C : System S L → Event L A → Prop}
    (hstep : ∀ seen sys e, Inv seen sys → C sys e →
      Inv (seen ++ observed observe sys e) (step prog sys e))
    {seen : List O} {sys : System S L} (hsys : Inv seen sys) {es : List (Event L A)}
    (hes : EachStep prog C sys es) :
    Inv (seen ++ trace prog observe sys es) (run prog sys es) := by
  induction es generalizing seen sys with
  | nil =>
    rw [trace,List.append_nil]
    exact hsys
  | cons e es ih =>
    have hnext := ih (hstep seen sys e hsys hes.1) hes.2
    rwa [List.append_assoc] at hnext

theorem invariant_trace {Inv : List O → System S L → Prop} {Allowed : Event L A → Prop}
    (hstep : ∀ seen sys e, Inv seen sys → Allowed e →
      Inv (seen ++ observed observe sys e) (step prog sys e))
    {seen : List O} {sys : System S L} (hsys : Inv seen sys) {es : List (Event L A)}
    (hes : ∀ e ∈ es, Allowed e) :
    Inv (seen ++ trace prog observe sys es) (run prog sys es) :=
  invariant_trace_of_eachStep (C := fun _ e => Allowed e) hstep hsys (eachStep_of_forall hes)

theorem trace_append (sys : System S L) (es es' : List (Event L A)) :
    trace prog observe sys (es ++ es') =
      trace prog observe sys es ++ trace prog observe (run prog sys es) es' := by
  induction es generalizing sys with
  | nil => rfl
  | cons e es ih => rw [List.cons_append,trace,ih,trace,List.append_assoc,run,run,List.foldl_cons]

end Trace

end Run

/-- Locks of a program, read off the state of the thread that holds them: a thread enters
only through a free lock, and nobody else's lock comes free. -/
structure Locking (prog : S → L → A → Option (S × L)) (K : Type) where
  holds : L → Option K
  locked : S → K → Prop
  taken : ∀ {s l a s' l' k}, prog s l a = some (s',l') → holds l' = some k →
    (holds l = some k → locked s k) → locked s' k
  free : ∀ {s l a s' l' k}, prog s l a = some (s',l') → holds l' = some k →
    holds l ≠ some k → ¬ locked s k
  kept : ∀ {s l a s' l' k}, prog s l a = some (s',l') → locked s k → holds l ≠ some k →
    locked s' k

namespace Locking

variable {K : Type} {prog : S → L → A → Option (S × L)} (lk : Locking prog K)

/-- Every held lock is locked, and by one thread. -/
structure Exclusive (sys : System S L) : Prop where
  locked : ∀ {i : ℕ} {l k}, sys.threads[i]? = some l → lk.holds l = some k →
    lk.locked sys.shared k
  unique : ∀ {i j : ℕ} {l l' k}, sys.threads[i]? = some l → sys.threads[j]? = some l' →
    lk.holds l = some k → lk.holds l' = some k → i = j

variable {lk}

theorem Exclusive.spawn {sys : System S L} (h : lk.Exclusive sys) {l : L}
    (hl : lk.holds l = none) : lk.Exclusive { sys with threads := sys.threads ++ [l] } := by
  have hold : ∀ {i : ℕ} {l' k}, (sys.threads ++ [l])[i]? = some l' → lk.holds l' = some k →
      sys.threads[i]? = some l' := by
    intro i l' k hi hk
    rcases getElem?_concat hi with hold | ⟨_,rfl⟩
    · exact hold
    · rw [hl] at hk
      cases hk
  refine ⟨fun hi hk => h.locked (hold hi hk) hk,?_⟩
  intro i j l₁ l₂ k hi hj hk hk'
  exact h.unique (hold hi hk) (hold hj hk') hk hk'

theorem Exclusive.advance {sys : System S L} (h : lk.Exclusive sys) {i : ℕ} {l l' : L} {a : A}
    {s' : S} (hi : sys.threads[i]? = some l) (hprog : prog sys.shared l a = some (s',l')) :
    lk.Exclusive ⟨s',sys.threads.set i l'⟩ := by
  -- the thread that moved does not hold a lock that another one holds
  have hother : ∀ {j : ℕ} {m k}, j ≠ i → sys.threads[j]? = some m → lk.holds m = some k →
      lk.holds l ≠ some k ∧ lk.holds l' ≠ some k := by
    intro j m k hji hj hk
    have hl : lk.holds l ≠ some k := fun hl => hji (h.unique hj hi hk hl)
    exact ⟨hl,fun hl' => lk.free hprog hl' hl (h.locked hj hk)⟩
  constructor
  · intro j m k hj hk
    rcases getElem?_set_of_some hi hj with ⟨rfl,rfl⟩ | ⟨hji,hj⟩
    · exact lk.taken hprog hk (h.locked hi)
    · exact lk.kept hprog (h.locked hj hk) (hother hji hj hk).1
  · intro j₁ j₂ m₁ m₂ k hj₁ hj₂ hk₁ hk₂
    rcases getElem?_set_of_some hi hj₁ with ⟨rfl,rfl⟩ | ⟨hne₁,hold₁⟩ <;>
      rcases getElem?_set_of_some hi hj₂ with ⟨rfl,rfl⟩ | ⟨hne₂,hold₂⟩
    · rfl
    · exact absurd hk₁ (hother hne₂ hold₂ hk₂).2
    · exact absurd hk₂ (hother hne₁ hold₁ hk₁).2
    · exact h.unique hold₁ hold₂ hk₁ hk₂

end Locking

/-- Named resources that threads work on from inside a critical section: what a thread inside
relies on, and what holds of a resource while nobody is inside. -/
structure Monitor (S L N : Type) where
  name : L → N
  inside : L → Prop
  rely : S → L → Prop
  idle : S → N → Prop

namespace Monitor

variable {N : Type} (mon : Monitor S L N)

def Alone (ls : List L) : Prop :=
  ∀ {i j : ℕ} {l l'}, ls[i]? = some l → ls[j]? = some l' → mon.name l = mon.name l' →
    mon.inside l → mon.inside l' → i = j

structure Kept (s : S) (ls : List L) : Prop where
  rely : ∀ {i : ℕ} {l}, ls[i]? = some l → mon.inside l → mon.rely s l
  idle : ∀ {k}, (∀ {i : ℕ} {l}, ls[i]? = some l → mon.name l = k → ¬ mon.inside l) →
    mon.idle s k

variable {mon}

theorem Kept.spawn {s : S} {ls : List L} (h : mon.Kept s ls) {l : L} (hl : ¬ mon.inside l) :
    mon.Kept s (ls ++ [l]) := by
  constructor
  · intro i m hi hm
    rcases getElem?_concat hi with hold | ⟨_,rfl⟩
    · exact h.rely hold hm
    · exact absurd hm hl
  · intro k hfree
    apply h.idle
    intro i m hi hm
    have hlt := (List.getElem?_eq_some_iff.mp hi).1
    exact hfree ((List.getElem?_append_left hlt).trans hi) hm

/-- The monitor rule. A step of one thread keeps the monitor if it leaves every resource but
its own alone, its own one too unless it is inside, enters only on what holds while nobody is
inside, and leaves that behind. -/
theorem Kept.advance {s s' : S} {ls : List L} {i : ℕ} {l l' : L} (h : mon.Kept s ls)
    (hi : ls[i]? = some l) (halone : mon.Alone ls) (halone' : mon.Alone (ls.set i l'))
    (hname : mon.name l' = mon.name l)
    (hrely : ∀ m, mon.inside m → mon.name m ≠ mon.name l ∨ ¬ mon.inside l →
      mon.rely s m → mon.rely s' m)
    (hidle : ∀ k, k ≠ mon.name l ∨ ¬ mon.inside l → mon.idle s k → mon.idle s' k)
    (henter : ¬ mon.inside l → mon.inside l' → mon.idle s (mon.name l) → mon.rely s' l')
    (hwithin : mon.inside l → mon.rely s l →
      (mon.inside l' → mon.rely s' l') ∧ (¬ mon.inside l' → mon.idle s' (mon.name l))) :
    mon.Kept s' (ls.set i l') := by
  have hlt := (List.getElem?_eq_some_iff.mp hi).1
  have hmoved : (ls.set i l')[i]? = some l' := List.getElem?_set_self hlt
  have hstay : ∀ {j : ℕ} {m}, j ≠ i → ls[j]? = some m → (ls.set i l')[j]? = some m :=
    fun hji hj => (List.getElem?_set_ne (Ne.symm hji)).trans hj
  constructor
  · intro j m hj hm
    rcases getElem?_set_of_some hi hj with ⟨rfl,rfl⟩ | ⟨hji,hold⟩
    · by_cases hl : mon.inside l
      · exact (hwithin hl (h.rely hi hl)).1 hm
      · -- whoever else is inside would be inside together with the thread that moved
        apply henter hl hm
        apply h.idle
        intro k e hk hek he
        have hkj : k ≠ j := by
          rintro rfl
          obtain rfl := Option.some.inj (hk.symm.trans hi)
          exact hl he
        exact hkj (halone' (hstay hkj hk) hmoved (hek.trans hname.symm) he hm)
    · apply hrely m hm _ (h.rely hold hm)
      by_contra hboth
      push Not at hboth
      exact hji (halone hold hi hboth.1 hm hboth.2)
  · intro k hfree
    by_cases hk : k = mon.name l ∧ mon.inside l
    · obtain ⟨rfl,hl⟩ := hk
      exact (hwithin hl (h.rely hi hl)).2 (hfree hmoved hname)
    · apply hidle k (by tauto)
      apply h.idle
      intro j m hj hm hin
      by_cases hji : j = i
      · subst hji
        obtain rfl := Option.some.inj (hj.symm.trans hi)
        exact hk ⟨hm.symm,hin⟩
      · exact hfree (hstay hji hj) hm hin

end Monitor
end P2PForge.Interleaving
