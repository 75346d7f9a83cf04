import Mathlib

/-! Computations that call other computations.
A computation acts on a state, step by step, and ends by returning or with a panic. Where it
calls, it goes on according to how the callee ended, so code that is deferred past a panic,
and code that recovers from it, are computations like any other. A computation is a tree:
it always ends, though there need be no bound on when. -/
namespace P2PForge

/-- In state `s` the action `act f k` leads to `f s` and goes on with `k s`. -/
inductive Code (σ ε Q : Type)
  | ret
  | panic (v : ε)
  | act (f : σ → σ) (k : σ → Code σ ε Q)
  | call (q : Q) (k : Option ε → Code σ ε Q)

/-- What a computation does to the state, and the panic it ends with if it does. -/
abbrev Effect (σ ε : Type) := σ → σ × Option ε

namespace Code

variable {σ τ ε Q Q' O : Type}

def run (callee : Q → Effect σ ε) : Code σ ε Q → Effect σ ε
  | .ret,s => (s,none)
  | .panic v,s => (s,some v)
  | .act f k,s => (k s).run callee (f s)
  | .call q k,s => (k (callee q s).2).run callee (callee q s).1

/-- What is seen of a run: `see` of the state at every action, and for every call what is
seen of the callee. -/
def seen (see : σ → List O) (callee : Q → Effect σ ε) (within : Q → σ → List O) :
    Code σ ε Q → σ → List O
  | .ret,_ => []
  | .panic _,_ => []
  | .act f k,s => see s ++ (k s).seen see callee within (f s)
  | .call q k,s => within q s ++ (k (callee q s).2).seen see callee within (callee q s).1

def finish : Option ε → Code σ ε Q
  | none => .ret
  | some v => .panic v

def andThen : Code σ ε Q → (Option ε → Code σ ε Q) → Code σ ε Q
  | .ret,next => next none
  | .panic v,next => next (some v)
  | .act f k,next => .act f fun s => (k s).andThen next
  | .call q k,next => .call q fun o => (k o).andThen next

def inline (body : Q → Code σ ε Q') : Code σ ε Q → Code σ ε Q'
  | .ret => .ret
  | .panic v => .panic v
  | .act f k => .act f fun s => (k s).inline body
  | .call q k => (body q).andThen fun o => (k o).inline body

/-- The computation on a larger state: `look` is what it sees of it, and `step` carries its
actions over. -/
def lift (look : τ → σ) (step : (σ → σ) → τ → τ) : Code σ ε Q → Code τ ε Q
  | .ret => .ret
  | .panic v => .panic v
  | .act f k => .act (step f) fun t => (k (look t)).lift look step
  | .call q k => .call q fun o => (k o).lift look step

/-- Every action of the computation takes a state to a related one. -/
def Each (R : σ → σ → Prop) : Code σ ε Q → Prop
  | .ret => True
  | .panic _ => True
  | .act f k => ∀ s, R s (f s) ∧ (k s).Each R
  | .call _ k => ∀ o, (k o).Each R

@[simp] theorem run_ret (callee : Q → Effect σ ε) (s : σ) :
    (ret : Code σ ε Q).run callee s = (s,none) := rfl

@[simp] theorem run_panic (callee : Q → Effect σ ε) (v : ε) (s : σ) :
    (panic v : Code σ ε Q).run callee s = (s,some v) := rfl

@[simp] theorem run_act (callee : Q → Effect σ ε) (f : σ → σ) (k : σ → Code σ ε Q) (s : σ) :
    (act f k).run callee s = (k s).run callee (f s) := rfl

@[simp] theorem run_call (callee : Q → Effect σ ε) (q : Q) (k : Option ε → Code σ ε Q) (s : σ) :
    (call q k).run callee s = (k (callee q s).2).run callee (callee q s).1 := rfl

@[simp] theorem run_finish (callee : Q → Effect σ ε) (o : Option ε) (s : σ) :
    (finish o : Code σ ε Q).run callee s = (s,o) := by
  cases o <;> rfl

@[simp] theorem lift_finish (look : τ → σ) (step : (σ → σ) → τ → τ) (o : Option ε) :
    (finish o : Code σ ε Q).lift look step = finish o := by
  cases o <;> rfl

theorem run_andThen (callee : Q → Effect σ ε) (c : Code σ ε Q) (next : Option ε → Code σ ε Q)
    (s : σ) :
    (c.andThen next).run callee s =
      (next (c.run callee s).2).run callee (c.run callee s).1 := by
  induction c generalizing s with
  | ret => rfl
  | panic v => rfl
  | act f k ih => exact ih s (f s)
  | call q k ih => exact ih (callee q s).2 (callee q s).1

theorem run_inline (callee : Q' → Effect σ ε) (body : Q → Code σ ε Q') (c : Code σ ε Q) (s : σ) :
    (c.inline body).run callee s = c.run (fun q => (body q).run callee) s := by
  induction c generalizing s with
  | ret => rfl
  | panic v => rfl
  | act f k ih => exact ih s (f s)
  | call q k ih =>
    rw [inline,run_andThen]
    exact ih _ _

/-- A property of what is seen that holds of nothing, of every single observation and of
what is put together from such, holds of a whole run. -/
theorem seen_induction {P : List O → Prop} (hnil : P [])
    (happend : ∀ {l l'}, P l → P l' → P (l ++ l')) {see : σ → List O} {callee : Q → Effect σ ε}
    {within : Q → σ → List O} (hsee : ∀ s, P (see s)) (hwithin : ∀ q s, P (within q s))
    (c : Code σ ε Q) (s : σ) : P (c.seen see callee within s) := by
  induction c generalizing s with
  | ret => exact hnil
  | panic v => exact hnil
  | act f k ih => exact happend (hsee s) (ih s (f s))
  | call q k ih => exact happend (hwithin q s) (ih _ _)

section Relation

variable {R : σ → σ → Prop} (hrefl : ∀ s, R s s) (htrans : ∀ {a b c}, R a b → R b c → R a c)
  {callee : Q → Effect σ ε}

include hrefl htrans

theorem run_rel {c : Code σ ε Q} (hcallee : ∀ q s, R s (callee q s).1) (h : c.Each R) (s : σ) :
    R s (c.run callee s).1 := by
  induction c generalizing s with
  | ret => exact hrefl s
  | panic v => exact hrefl s
  | act f k ih => exact htrans (h s).1 (ih s (h s).2 (f s))
  | call q k ih => exact htrans (hcallee q s) (ih _ (h _) _)

/-- Whatever is seen of a run is seen at an action or within a call, at a state that the
relation puts between the beginning and the end of the run. -/
theorem mem_seen {c : Code σ ε Q} (hcallee : ∀ q s, R s (callee q s).1) (h : c.Each R)
    {see : σ → List O} {within : Q → σ → List O} {s : σ} {o : O}
    (ho : o ∈ c.seen see callee within s) :
    (∃ t, R s t ∧ R t (c.run callee s).1 ∧ o ∈ see t) ∨
      ∃ q t, R s t ∧ R (callee q t).1 (c.run callee s).1 ∧ o ∈ within q t := by
  induction c generalizing s with
  | ret => cases ho
  | panic v => cases ho
  | act f k ih =>
    rcases List.mem_append.mp ho with hnow | hlater
    · exact .inl ⟨s,hrefl s,run_rel hrefl htrans hcallee (c := act f k) h s,hnow⟩
    · rcases ih s (h s).2 hlater with ⟨t,hst,hend,ht⟩ | ⟨q,t,hst,hend,ht⟩
      · exact .inl ⟨t,htrans (h s).1 hst,hend,ht⟩
      · exact .inr ⟨q,t,htrans (h s).1 hst,hend,ht⟩
  | call q k ih =>
    rcases List.mem_append.mp ho with hnow | hlater
    · exact .inr ⟨q,s,hrefl s,run_rel hrefl htrans hcallee (h _) _,hnow⟩
    · rcases ih _ (h _) hlater with ⟨t,hst,hend,ht⟩ | ⟨q',t,hst,hend,ht⟩
      · exact .inl ⟨t,htrans (hcallee q s) hst,hend,ht⟩
      · exact .inr ⟨q',t,htrans (hcallee q s) hst,hend,ht⟩

end Relation

theorem each_lift {S : σ → σ → Prop} {R : τ → τ → Prop} {look : τ → σ} {step : (σ → σ) → τ → τ}
    (hstep : ∀ f t, S (look t) (f (look t)) → R t (step f t)) {c : Code σ ε Q} (hc : c.Each S) :
    (c.lift look step).Each R := by
  induction c with
  | ret => trivial
  | panic v => trivial
  | act f k ih => exact fun t => ⟨hstep f t (hc _).1,ih _ (hc _).2⟩
  | call q k ih => exact fun o => ih o (hc o)

theorem Each.mono {R S : σ → σ → Prop} {c : Code σ ε Q} (hc : c.Each R)
    (h : ∀ s s', R s s' → S s s') : c.Each S := by
  induction c with
  | ret => trivial
  | panic v => trivial
  | act f k ih => exact fun s => ⟨h _ _ (hc s).1,ih s (hc s).2⟩
  | call q k ih => exact fun o => ih o (hc o)

theorem each_true (c : Code σ ε Q) : c.Each fun _ _ => True := by
  induction c with
  | ret => trivial
  | panic v => trivial
  | act f k ih => exact fun s => ⟨trivial,ih s⟩
  | call q k ih => exact ih

theorem each_finish (R : σ → σ → Prop) (o : Option ε) : (finish o : Code σ ε Q).Each R := by
  cases o <;> trivial

theorem each_andThen {R : σ → σ → Prop} {c : Code σ ε Q} {next : Option ε → Code σ ε Q}
    (hc : c.Each R) (hnext : ∀ o, (next o).Each R) : (c.andThen next).Each R := by
  induction c with
  | ret => exact hnext none
  | panic v => exact hnext (some v)
  | act f k ih => exact fun s => ⟨(hc s).1,ih s (hc s).2⟩
  | call q k ih => exact fun o => ih o (hc o)

theorem each_inline {R : σ → σ → Prop} {body : Q → Code σ ε Q'} {c : Code σ ε Q}
    (hc : c.Each R) (hbody : ∀ q, (body q).Each R) : (c.inline body).Each R := by
  induction c with
  | ret => trivial
  | panic v => trivial
  | act f k ih => exact fun s => ⟨(hc s).1,ih s (hc s).2⟩
  | call q k ih => exact each_andThen (hbody q) fun o => ih o (hc o)

/-- The first computation does on a larger state what the second does on the part of it that
`look` sees; what else it keeps in the state has no influence. -/
inductive Shadows (look : τ → σ) : Code τ ε Q → Code σ ε Q → Prop
  | ret : Shadows look .ret .ret
  | panic (v : ε) : Shadows look (.panic v) (.panic v)
  | act {f : τ → τ} {g : σ → σ} {k : τ → Code τ ε Q} {l : σ → Code σ ε Q} :
    (∀ t, look (f t) = g (look t)) → (∀ t, Shadows look (k t) (l (look t))) →
      Shadows look (.act f k) (.act g l)
  | call (q : Q) {k : Option ε → Code τ ε Q} {l : Option ε → Code σ ε Q} :
    (∀ o, Shadows look (k o) (l o)) → Shadows look (.call q k) (.call q l)

def Covers (look : τ → σ) (e : Effect τ ε) (e' : Effect σ ε) : Prop :=
  ∀ t, (look (e t).1,(e t).2) = e' (look t)

section Shadows

variable {look : τ → σ} {c : Code τ ε Q} {d : Code σ ε Q}

theorem shadows_finish (o : Option ε) :
    Shadows look (finish o : Code τ ε Q) (finish o) := by
  cases o with
  | none => exact .ret
  | some v => exact .panic v

theorem shadows_lift {step : (σ → σ) → τ → τ} (hstep : ∀ f t, look (step f t) = f (look t))
    (d : Code σ ε Q) : Shadows look (d.lift look step) d := by
  induction d with
  | ret => exact .ret
  | panic v => exact .panic v
  | act f k ih => exact .act (hstep f) fun t => ih (look t)
  | call q k ih => exact .call q ih

theorem Shadows.andThen (h : Shadows look c d) {next : Option ε → Code τ ε Q}
    {next' : Option ε → Code σ ε Q} (hnext : ∀ o, Shadows look (next o) (next' o)) :
    Shadows look (c.andThen next) (d.andThen next') := by
  induction h with
  | ret => exact hnext none
  | panic v => exact hnext (some v)
  | act hf _ ih => exact .act hf ih
  | call q _ ih => exact .call q ih

theorem Shadows.inline (h : Shadows look c d) {body : Q → Code τ ε Q'} {body' : Q → Code σ ε Q'}
    (hbody : ∀ q, Shadows look (body q) (body' q)) :
    Shadows look (c.inline body) (d.inline body') := by
  induction h with
  | ret => exact .ret
  | panic v => exact .panic v
  | act hf _ ih => exact .act hf ih
  | call q _ ih => exact (hbody q).andThen ih

theorem Shadows.run (h : Shadows look c d) {callee : Q → Effect τ ε} {callee' : Q → Effect σ ε}
    (hcallee : ∀ q, Covers look (callee q) (callee' q)) :
    Covers look (c.run callee) (d.run callee') := by
  intro t
  induction h generalizing t with
  | ret => rfl
  | panic v => rfl
  | act hf _ ih =>
    rw [run_act,run_act,← hf]
    exact ih t _
  | call q _ ih =>
    rw [run_call,run_call,← hcallee q t]
    exact ih _ _

theorem Shadows.seen (h : Shadows look c d) {callee : Q → Effect τ ε} {callee' : Q → Effect σ ε}
    (hcallee : ∀ q, Covers look (callee q) (callee' q)) {O' : Type} {g : O → O'}
    {see : τ → List O} {see' : σ → List O'} (hsee : ∀ t, (see t).map g = see' (look t))
    {within : Q → τ → List O} {within' : Q → σ → List O'}
    (hwithin : ∀ q t, (within q t).map g = within' q (look t)) (t : τ) :
    (c.seen see callee within t).map g = d.seen see' callee' within' (look t) := by
  induction h generalizing t with
  | ret => rfl
  | panic v => rfl
  | act hf _ ih => simp only [Code.seen,List.map_append,hsee,ih,hf]
  | call q _ ih => simp only [Code.seen,List.map_append,hwithin,ih,← hcallee q t]

end Shadows

end Code
end P2PForge
