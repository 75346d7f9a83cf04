import Mathlib

/-! Code that makes calls of what is around it.
Every call is answered, with an error or without one, in a way that may depend on all calls
made before; calls and answers are put on a log. What such code can do is said of the entries
it adds to the log, whatever was on it and whatever the answers are. -/
namespace P2PForge

structure Acting.Entry (C E : Type) where
  call : C
  err : Option E
  deriving DecidableEq

open Acting

/-- How the surroundings answer the next call after what is on the log. -/
abbrev Answers (C E : Type) := List (Entry C E) → C → Option E

abbrev Acting (C E α : Type) := StateM (List (Entry C E)) α

namespace Acting

variable {C E α β : Type}

def perform (o : Answers C E) (c : C) : Acting C E (Option E) :=
  fun log => (o log c,log ++ [⟨c,o log c⟩])

def performAll (o : Answers C E) : List C → Acting C E Unit
  | [] => pure ()
  | c :: cs => do
    let _ ← perform o c
    performAll o cs

/-- `if err := f(); err != nil`, and what follows if there is none. -/
def checking (f : Acting C E (Option E)) (failed : E → Acting C E α) (next : Acting C E α) :
    Acting C E α := do
  match ← f with
  | some e => failed e
  | none => next

theorem checking_apply (f : Acting C E (Option E)) (failed : E → Acting C E α)
    (next : Acting C E α) (log : List (Entry C E)) :
    checking f failed next log = match (f log).1 with
      | some e => failed e (f log).2
      | none => next (f log).2 := by
  simp only [checking,bind,StateT.bind]
  rcases f log with ⟨_ | e,log'⟩ <;> rfl

theorem checking_bind (f : Acting C E (Option E)) (failed : E → Acting C E α) (next : Acting C E α)
    (k : α → Acting C E β) :
    checking f failed next >>= k = checking f (fun e => failed e >>= k) (next >>= k) := by
  unfold checking
  rw [bind_assoc]
  refine bind_congr fun err => ?_
  cases err <;> rfl

/-- Whatever is on the log, the code adds entries that are right for what it returns. -/
def Adds (f : Acting C E α) (Q : α → List (Entry C E) → Prop) : Prop :=
  ∀ log, ∃ l, (f log).2 = log ++ l ∧ Q (f log).1 l

variable {o : Answers C E} {f : Acting C E α} {P : α → List (Entry C E) → Prop}
  {Q : β → List (Entry C E) → Prop}

theorem Adds.mono {R : α → List (Entry C E) → Prop} (hf : Adds f P) (h : ∀ a l, P a l → R a l) :
    Adds f R := by
  intro log
  obtain ⟨l,hlog,hl⟩ := hf log
  exact ⟨l,hlog,h _ l hl⟩

theorem Adds.and {R : α → List (Entry C E) → Prop} (hf : Adds f P) (hf' : Adds f R) :
    Adds f fun a l => P a l ∧ R a l := by
  intro log
  obtain ⟨l,hlog,hl⟩ := hf log
  obtain ⟨l',hlog',hl'⟩ := hf' log
  obtain rfl : l = l' := List.append_cancel_left (hlog.symm.trans hlog')
  exact ⟨l,hlog,hl,hl'⟩

theorem adds_pure {a : α} (h : P a []) : Adds (pure a) P :=
  fun log => ⟨[],(List.append_nil log).symm,h⟩

theorem Adds.bind {g : α → Acting C E β} (hf : Adds f P)
    (hg : ∀ a l, P a l → Adds (g a) fun b l' => Q b (l ++ l')) : Adds (f >>= g) Q := by
  intro log
  obtain ⟨l,hlog,hl⟩ := hf log
  obtain ⟨l',hlog',hl'⟩ := hg _ l hl (f log).2
  refine ⟨l ++ l',?_,hl'⟩
  rw [← List.append_assoc,← hlog]
  exact hlog'

theorem adds_perform (c : C) : Adds (perform o c) fun err l => l = [⟨c,err⟩] :=
  fun _ => ⟨_,rfl,rfl⟩

theorem adds_performAll (cs : List C) :
    Adds (performAll o cs) fun _ l => l.map Entry.call = cs := by
  induction cs with
  | nil => exact adds_pure rfl
  | cons c cs ih =>
    refine (adds_perform c).bind fun err l hl => ih.mono fun _ l' hl' => ?_
    rw [hl,List.map_append,hl']
    rfl

/-- The rule for a call that may fail: what follows is judged with what was added so far. -/
theorem Adds.checking {f : Acting C E (Option E)} {R : Option E → List (Entry C E) → Prop}
    {failed : E → Acting C E β} {next : Acting C E β} (hf : Adds f R)
    (hfailed : ∀ e l, R (some e) l → Adds (failed e) fun b l' => Q b (l ++ l'))
    (hnext : ∀ l, R none l → Adds next fun b l' => Q b (l ++ l')) :
    Adds (checking f failed next) Q := by
  refine hf.bind fun err l hl => ?_
  cases err with
  | some e => exact hfailed e l hl
  | none => exact hnext l hl

/-- Every entry of `l`, added after `log`, holds the answer that its call was given. -/
def Answered (o : Answers C E) (log l : List (Entry C E)) : Prop :=
  ∀ pre x post, l = pre ++ x :: post → x.err = o (log ++ pre) x.call

theorem Answered.head {log l : List (Entry C E)} {x : Entry C E} (h : Answered o log (x :: l)) :
    o log x.call = x.err := by
  simpa using (h [] x l rfl).symm

theorem Answered.tail {log l : List (Entry C E)} {x : Entry C E} (h : Answered o log (x :: l)) :
    Answered o (log ++ [x]) l := by
  intro pre y post hsplit
  rw [List.append_assoc]
  exact h (x :: pre) y post (by rw [hsplit]; rfl)

def Honest (o : Answers C E) (f : Acting C E α) : Prop :=
  ∀ log, ∃ l, (f log).2 = log ++ l ∧ Answered o log l

theorem Honest.answered (hf : Honest o f) {log l : List (Entry C E)} (hl : (f log).2 = log ++ l) :
    Answered o log l := by
  obtain ⟨l',hl',hanswered⟩ := hf log
  obtain rfl : l = l' := List.append_cancel_left (hl.symm.trans hl')
  exact hanswered

theorem honest_pure (a : α) : Honest o (pure a : Acting C E α) :=
  fun log => ⟨[],(List.append_nil log).symm,by simp [Answered]⟩

theorem honest_perform (c : C) : Honest o (perform o c) := by
  intro log
  refine ⟨_,rfl,?_⟩
  intro pre x post hsplit
  rcases List.singleton_eq_append_iff.mp hsplit with ⟨rfl,hx⟩ | ⟨_,hx⟩
  · obtain ⟨rfl,_⟩ := List.cons_eq_cons.mp hx
    rw [List.append_nil]
  · cases hx

theorem Honest.bind {g : α → Acting C E β} (hf : Honest o f) (hg : ∀ a, Honest o (g a)) :
    Honest o (f >>= g) := by
  intro log
  obtain ⟨l,hlog,hl⟩ := hf log
  obtain ⟨l',hlog',hl'⟩ := hg (f log).1 (f log).2
  refine ⟨l ++ l',?_,?_⟩
  · rw [← List.append_assoc,← hlog]
    exact hlog'
  rw [hlog] at hl'
  intro pre x post hsplit
  rcases List.append_eq_append_iff.mp hsplit with ⟨r,rfl,hr⟩ | ⟨r,rfl,hr⟩
  · rw [← List.append_assoc]
    exact hl' r x post hr
  · cases r with
    | nil => simpa using hl' [] x post (by simpa using hr.symm)
    | cons y r =>
      obtain ⟨rfl,_⟩ := List.cons_eq_cons.mp hr
      exact hl pre x r rfl

theorem honest_performAll (cs : List C) : Honest o (performAll o cs) := by
  induction cs with
  | nil => exact honest_pure ()
  | cons c cs ih => exact (honest_perform c).bind fun _ => ih

theorem honest_released (cs : List C) (a : α) :
    Honest o (performAll o cs >>= fun _ => pure a) :=
  (honest_performAll cs).bind fun _ => honest_pure a

theorem Honest.checking {f : Acting C E (Option E)} {failed : E → Acting C E β}
    {next : Acting C E β} (hf : Honest o f) (hfailed : ∀ e, Honest o (failed e))
    (hnext : Honest o next) : Honest o (checking f failed next) := by
  refine hf.bind fun err => ?_
  cases err with
  | some e => exact hfailed e
  | none => exact hnext

end Acting
end P2PForge
