import P2PForge.Computation

/-! Chains of wrappers.
Each wrapper of a chain is a computation that may call the rest of the chain, as often as it
likes and whatever it does with the outcome; once the state is halted the rest is skipped. A
run is watched at the borders of the wrappers, at their calls and at their actions. What is
seen is nested like an onion, whatever the wrappers do. -/
namespace P2PForge

abbrev Wrapper (σ ε : Type) := Code σ ε Unit

/-- What is seen of the wrapper at a position: it is entered, it is left, it calls the rest of
the chain in a halted state or not, the call comes back, it acts on a state. -/
inductive Mark (σ : Type)
  | enter (i : ℕ)
  | exit (i : ℕ) (panicked : Bool)
  | call (i : ℕ) (halted : Bool)
  | back (i : ℕ)
  | act (i : ℕ) (s : σ)

inductive Border
  | entered (i : ℕ)
  | left (i : ℕ)
  deriving DecidableEq

namespace Mark

variable {σ : Type}

def layer : Mark σ → ℕ
  | .enter i | .exit i _ | .call i _ | .back i | .act i _ => i

def border : Mark σ → Option Border
  | .enter i => some (.entered i)
  | .exit i _ => some (.left i)
  | _ => none

def isCall (i : ℕ) : Mark σ → Bool
  | .call j _ => i == j
  | _ => false

def map {τ : Type} (look : τ → σ) : Mark τ → Mark σ
  | .enter i => .enter i
  | .exit i panicked => .exit i panicked
  | .call i halted => .call i halted
  | .back i => .back i
  | .act i t => .act i (look t)

end Mark

namespace Onion

variable {σ ε : Type} (halted : σ → Bool)

def stop : Effect σ ε := fun s => (s,none)

def run (next : Effect σ ε) : List (Wrapper σ ε) → Effect σ ε
  | [],s => next s
  | m :: ms,s => if halted s then (s,none) else m.run (fun _ => run next ms) s

/-- What is seen while the wrapper at `i` runs, given the rest of the chain and what is seen
of it. -/
def during (i : ℕ) (m : Wrapper σ ε) (callee : Effect σ ε) (rest : σ → List (Mark σ)) (s : σ) :
    List (Mark σ) :=
  m.seen (fun t => [Mark.act i t]) (fun _ => callee)
    (fun _ t => Mark.call i (halted t) :: rest t ++ [Mark.back i]) s

def seen : ℕ → List (Wrapper σ ε) → σ → List (Mark σ)
  | _,[],_ => []
  | i,m :: ms,s =>
    if halted s then []
    else
      Mark.enter i :: during halted i m (run halted stop ms) (seen (i + 1) ms) s ++
        [Mark.exit i (m.run (fun _ => run halted stop ms) s).2.isSome]

def Respects (next : Effect σ ε) : Prop := ∀ s, halted s = true → next s = (s,none)

variable {halted}

theorem seen_of_halted {s : σ} (hs : halted s = true) (i : ℕ) (ms : List (Wrapper σ ε)) :
    seen halted i ms s = [] := by
  cases ms with
  | nil => rfl
  | cons m ms => rw [seen,if_pos hs]

theorem seen_cons {s : σ} (hs : ¬ halted s = true) (i : ℕ) (m : Wrapper σ ε)
    (ms : List (Wrapper σ ε)) :
    seen halted i (m :: ms) s =
      Mark.enter i :: during halted i m (run halted stop ms) (seen halted (i + 1) ms) s ++
        [Mark.exit i (m.run (fun _ => run halted stop ms) s).2.isSome] := by
  rw [seen,if_neg hs]

theorem respects_stop : Respects halted (stop : Effect σ ε) := fun _ _ => rfl

theorem respects_run {next : Effect σ ε} (hnext : Respects halted next)
    (ms : List (Wrapper σ ε)) : Respects halted (run halted next ms) := by
  intro s hs
  cases ms with
  | nil => exact hnext s hs
  | cons m ms => simp [run,hs]

theorem run_append (next : Effect σ ε) (ms ms' : List (Wrapper σ ε)) :
    run halted next (ms ++ ms') = run halted (run halted next ms') ms := by
  induction ms with
  | nil => rfl
  | cons m ms ih =>
    funext s
    simp only [List.cons_append,run,ih]

theorem run_cons_chain {next : Effect σ ε} (hnext : Respects halted next) {m : Wrapper σ ε}
    {ms : List (Wrapper σ ε)} (hm : ∀ rest, m.run (fun _ => rest) = run halted rest ms)
    (ms' : List (Wrapper σ ε)) :
    run halted next (m :: ms') = run halted next (ms ++ ms') := by
  funext s
  rw [run_append,run,hm]
  split_ifs with hs
  · exact (respects_run (respects_run hnext ms') ms s hs).symm
  · rfl

/-- What every action of every wrapper keeps, a run of the chain keeps. -/
theorem run_rel {R : σ → σ → Prop} (hrefl : ∀ s, R s s)
    (htrans : ∀ {a b c}, R a b → R b c → R a c) {next : Effect σ ε} (hnext : ∀ s, R s (next s).1)
    {ms : List (Wrapper σ ε)} (hms : ∀ m ∈ ms, m.Each R) (s : σ) :
    R s (run halted next ms s).1 := by
  induction ms generalizing s with
  | nil => exact hnext s
  | cons m ms ih =>
    obtain ⟨hm,htail⟩ := List.forall_mem_cons.mp hms
    rw [run]
    split_ifs with hs
    · exact hrefl s
    · exact Code.run_rel hrefl htrans (fun _ => ih htail) hm s

theorem rel_of_act_mem_seen {R : σ → σ → Prop} (hrefl : ∀ s, R s s)
    (htrans : ∀ {a b c}, R a b → R b c → R a c) {ms : List (Wrapper σ ε)}
    (hms : ∀ m ∈ ms, m.Each R) {i j : ℕ} {s t : σ}
    (h : Mark.act j t ∈ seen halted i ms s) : R s t := by
  induction ms generalizing i s with
  | nil => cases h
  | cons m ms ih =>
    obtain ⟨hm,htail⟩ := List.forall_mem_cons.mp hms
    by_cases hs : halted s = true
    · rw [seen_of_halted hs] at h
      cases h
    · have hbody :
          Mark.act j t ∈ during halted i m (run halted stop ms) (seen halted (i + 1) ms) s := by
        simpa [seen_cons hs] using h
      have hcallee : ∀ (_ : Unit) u, R u (run (ε := ε) halted stop ms u).1 :=
        fun _ => run_rel hrefl htrans hrefl htail
      rcases Code.mem_seen hrefl htrans hcallee hm hbody with ⟨u,hu,_,hact⟩ | ⟨_,u,hu,_,hwithin⟩
      · obtain ⟨_,rfl⟩ : j = i ∧ t = u := by simpa using hact
        exact hu
      · have hinner : Mark.act j t ∈ seen halted (i + 1) ms u := by simpa using hwithin
        exact htrans hu (ih htail hinner)

section Shadows

variable {τ : Type} {look : τ → σ} {halted' : τ → Bool}

theorem covers_run (hhalted : ∀ t, halted' t = halted (look t)) {next' : Effect τ ε}
    {next : Effect σ ε} (hnext : Code.Covers look next' next)
    {pairs : List (Wrapper τ ε × Wrapper σ ε)} (h : ∀ x ∈ pairs, Code.Shadows look x.1 x.2) :
    Code.Covers look (run halted' next' (pairs.map Prod.fst))
      (run halted next (pairs.map Prod.snd)) := by
  induction pairs with
  | nil => exact hnext
  | cons x pairs ih =>
    obtain ⟨hx,hpairs⟩ := List.forall_mem_cons.mp h
    intro t
    simp only [List.map_cons,run,hhalted]
    split_ifs
    · rfl
    · exact hx.run (fun _ => ih hpairs) t

theorem map_seen (hhalted : ∀ t, halted' t = halted (look t))
    {pairs : List (Wrapper τ ε × Wrapper σ ε)} (h : ∀ x ∈ pairs, Code.Shadows look x.1 x.2)
    (i : ℕ) (t : τ) :
    (seen halted' i (pairs.map Prod.fst) t).map (Mark.map look) =
      seen halted i (pairs.map Prod.snd) (look t) := by
  induction pairs generalizing i t with
  | nil => rfl
  | cons x pairs ih =>
    obtain ⟨hx,hpairs⟩ := List.forall_mem_cons.mp h
    have hrest : Code.Covers look (run (ε := ε) halted' stop (pairs.map Prod.fst))
        (run halted stop (pairs.map Prod.snd)) := covers_run hhalted (fun _ => rfl) hpairs
    have hbody : (during halted' i x.1 (run halted' stop (pairs.map Prod.fst))
        (seen halted' (i + 1) (pairs.map Prod.fst)) t).map (Mark.map look) =
        during halted i x.2 (run halted stop (pairs.map Prod.snd))
          (seen halted (i + 1) (pairs.map Prod.snd)) (look t) := by
      refine hx.seen (fun _ => hrest) (fun _ => rfl) (fun _ u => ?_) t
      simp [Mark.map,hhalted,ih hpairs]
    have hend := congrArg Prod.snd (hx.run (fun _ => hrest) t)
    simp only [List.map_cons,seen,hhalted]
    split_ifs
    · rfl
    · simp only [List.map_append,List.map_cons,hbody,Mark.map,List.map_nil,← hend]

end Shadows

section Nesting

def Within (i : ℕ) (l : List (Mark σ)) : Prop :=
  ∀ x ∈ l, i ≤ x.layer ∧ x.border ≠ some (Border.entered i) ∧ x.border ≠ some (Border.left i)

theorem Within.append {i : ℕ} {l l' : List (Mark σ)} (h : Within i l) (h' : Within i l') :
    Within i (l ++ l') := by
  intro x hx
  rcases List.mem_append.mp hx with hleft | hright
  · exact h x hleft
  · exact h' x hright

theorem Within.outer {i j : ℕ} {l : List (Mark σ)} (h : ∀ x ∈ l, j ≤ x.layer) (hij : i < j) :
    Within i l := by
  intro x hx
  have hle := h x hx
  refine ⟨by omega,?_⟩
  cases x <;> simp_all [Mark.layer,Mark.border] <;> omega

/-- Between `pre` and `post` the wrapper after `i` is entered, right from a call of `i` in a
state that is not halted, and left before that call comes back. -/
def Called (i : ℕ) (pre post : List (Mark σ)) : Prop :=
  ∃ b c d panicked, pre = b ++ [Mark.call i false] ∧
    post = c ++ Mark.exit (i + 1) panicked :: Mark.back i :: d ∧
    Within i b ∧ Within (i + 1) c ∧ Within i d

/-- Between `pre` and `post` the wrapper after `i` is entered as above, during an activation
of `i` that began in `pre` and ends in `post`. -/
def Nested (i : ℕ) (pre post : List (Mark σ)) : Prop :=
  ∃ a b c d e panicked panicked', pre = a ++ Mark.enter i :: b ++ [Mark.call i false] ∧
    post = c ++ Mark.exit (i + 1) panicked :: Mark.back i :: d ++ Mark.exit i panicked' :: e ∧
    Within i b ∧ Within (i + 1) c ∧ Within i d

theorem Nested.extend {i : ℕ} {pre post : List (Mark σ)} (h : Nested i pre post)
    (l l' : List (Mark σ)) : Nested i (l ++ pre) (post ++ l') := by
  obtain ⟨a,b,c,d,e,p,p',rfl,rfl,hb,hc,hd⟩ := h
  exact ⟨l ++ a,b,c,d,e ++ l',p,p',by simp,by simp,hb,hc,hd⟩

theorem append_eq_append_cons {α : Type} {l l' pre post : List α} {x : α}
    (h : l ++ l' = pre ++ x :: post) :
    (∃ r, l = pre ++ x :: r ∧ post = r ++ l') ∨ ∃ r, pre = l ++ r ∧ l' = r ++ x :: post := by
  rcases List.append_eq_append_iff.mp h with ⟨r,hpre,hl'⟩ | ⟨r,hl,hpost⟩
  · exact .inr ⟨r,hpre,hl'⟩
  · cases r with
    | nil => exact .inr ⟨[],by simpa using hl.symm,by simpa using hpost.symm⟩
    | cons y r =>
      obtain ⟨rfl,rfl⟩ := List.cons_eq_cons.mp hpost
      exact .inl ⟨r,hl,rfl⟩

/-- What is seen of the body of the wrapper at `i`: each entry of the next wrapper answers a
call, and further in all is nested. -/
structure Body (i : ℕ) (l : List (Mark σ)) : Prop where
  within : Within i l
  called : ∀ {pre post}, l = pre ++ Mark.enter (i + 1) :: post → Called i pre post
  nested : ∀ {j pre post}, i < j → l = pre ++ Mark.enter (j + 1) :: post → Nested j pre post

theorem body_nil (i : ℕ) : Body i ([] : List (Mark σ)) := by
  constructor <;> simp [Within]

theorem body_act (i : ℕ) (s : σ) : Body i [Mark.act i s] := by
  constructor <;> simp [Within,Mark.layer,Mark.border,List.singleton_eq_append_iff]

theorem Body.append {i : ℕ} {l l' : List (Mark σ)} (h : Body i l) (h' : Body i l') :
    Body i (l ++ l') := by
  refine ⟨h.within.append h'.within,?_,?_⟩
  · intro pre post heq
    rcases append_eq_append_cons heq with ⟨r,hl,rfl⟩ | ⟨r,rfl,hl'⟩
    · obtain ⟨b,c,d,p,rfl,rfl,hb,hc,hd⟩ := h.called hl
      exact ⟨b,c,d ++ l',p,rfl,by simp,hb,hc,hd.append h'.within⟩
    · obtain ⟨b,c,d,p,rfl,rfl,hb,hc,hd⟩ := h'.called hl'
      exact ⟨l ++ b,c,d,p,by simp,rfl,h.within.append hb,hc,hd⟩
  · intro j pre post hij heq
    rcases append_eq_append_cons heq with ⟨r,hl,rfl⟩ | ⟨r,rfl,hl'⟩
    · simpa using (h.nested hij hl).extend [] l'
    · simpa using (h'.nested hij hl').extend l []

/-- What is seen of a chain from position `i` on: nothing, or one activation of its first
wrapper with all else inside. -/
structure Shape (i : ℕ) (l : List (Mark σ)) : Prop where
  activation : l = [] ∨ ∃ mid panicked, l = Mark.enter i :: mid ++ [Mark.exit i panicked] ∧
    Within i mid
  nested : ∀ {j pre post}, i ≤ j → l = pre ++ Mark.enter (j + 1) :: post → Nested j pre post

theorem Shape.layer_le {i : ℕ} {l : List (Mark σ)} (h : Shape i l) : ∀ x ∈ l, i ≤ x.layer := by
  rcases h.activation with rfl | ⟨mid,p,rfl,hmid⟩
  · simp
  · intro x hx
    simp only [List.cons_append,List.mem_cons,List.mem_append,List.not_mem_nil,or_false] at hx
    rcases hx with rfl | hx | rfl
    · exact le_rfl
    · exact (hmid x hx).1
    · exact le_rfl

theorem Shape.body {i : ℕ} {l : List (Mark σ)} (h : Shape (i + 1) l) {halt : Bool}
    (hhalt : halt = true → l = []) : Body i (Mark.call i halt :: l ++ [Mark.back i]) := by
  have hinner : Within i l := Within.outer h.layer_le (Nat.lt_succ_self i)
  have hwithin : Within i (Mark.call i halt :: l ++ [Mark.back i]) := by
    intro x hx
    simp only [List.cons_append,List.mem_cons,List.mem_append,List.not_mem_nil,or_false] at hx
    rcases hx with rfl | hx | rfl
    · simp [Mark.layer,Mark.border]
    · exact hinner x hx
    · simp [Mark.layer,Mark.border]
  -- an entry is neither the call nor its return, so it stands in `l`
  have hsplit : ∀ {j pre post},
      Mark.call i halt :: l ++ [Mark.back i] = pre ++ Mark.enter j :: post →
      ∃ pre' post', pre = Mark.call i halt :: pre' ∧ post = post' ++ [Mark.back i] ∧
        l = pre' ++ Mark.enter j :: post' := by
    intro j pre post heq
    rcases append_eq_append_cons heq with ⟨r,hl,rfl⟩ | ⟨r,rfl,hl⟩
    · cases pre with
      | nil => simp at hl
      | cons x pre' =>
        obtain ⟨rfl,htail⟩ := List.cons_eq_cons.mp hl
        exact ⟨pre',r,rfl,rfl,htail⟩
    · cases r <;> simp at hl
  refine ⟨hwithin,?_,?_⟩
  · intro pre post heq
    obtain ⟨pre',post',rfl,rfl,hl⟩ := hsplit heq
    rcases h.activation with rfl | ⟨mid,p,rfl,hmid⟩
    · simp at hl
    · cases halt with
      | true => simp at hhalt
      | false =>
        cases pre' with
        | nil =>
          obtain ⟨_,rfl⟩ := List.cons_eq_cons.mp hl
          exact ⟨[],mid,[],p,rfl,by simp,by simp [Within],hmid,by simp [Within]⟩
        | cons x pre' =>
          -- a second entry inside the activation
          obtain ⟨_,hrest⟩ := List.cons_eq_cons.mp hl
          rcases append_eq_append_cons hrest with ⟨r,hr,_⟩ | ⟨r,_,hr⟩
          · exact absurd rfl (hmid (Mark.enter (i + 1)) (by simp [hr])).2.1
          · cases r <;> simp at hr
  · intro j pre post hij heq
    obtain ⟨pre',post',rfl,rfl,hl⟩ := hsplit heq
    exact (h.nested hij hl).extend [Mark.call i halt] [Mark.back i]

theorem body_of_shape {i : ℕ} {ms : List (Wrapper σ ε)} (m : Wrapper σ ε) (s : σ)
    (hrest : ∀ t, Shape (i + 1) (seen halted (i + 1) ms t)) :
    Body i (during halted i m (run halted stop ms) (seen halted (i + 1) ms) s) := by
  apply Code.seen_induction (body_nil i) fun h h' => h.append h'
  · exact body_act i
  · exact fun _ t => (hrest t).body fun ht => seen_of_halted ht _ _

theorem shape_seen (i : ℕ) (ms : List (Wrapper σ ε)) (s : σ) : Shape i (seen halted i ms s) := by
  induction ms generalizing i s with
  | nil => exact ⟨.inl rfl,by simp [seen]⟩
  | cons m ms ih =>
    by_cases hs : halted s = true
    · rw [seen_of_halted hs]
      exact ⟨.inl rfl,by simp⟩
    · have hbody := body_of_shape m s (ih (i + 1))
      rw [seen_cons hs]
      generalize during halted i m (run halted stop ms) (seen halted (i + 1) ms) s = mid at hbody
      generalize (m.run (fun _ => run halted stop ms) s).2.isSome = panicked
      refine ⟨.inr ⟨mid,panicked,rfl,hbody.within⟩,?_⟩
      intro j pre post hij heq
      rcases append_eq_append_cons heq with ⟨r,hl,rfl⟩ | ⟨r,_,hl⟩
      · cases pre with
        | nil =>
          obtain ⟨hhead,_⟩ := List.cons_eq_cons.mp hl
          cases hhead
          omega
        | cons x pre =>
          obtain ⟨rfl,htail⟩ := List.cons_eq_cons.mp hl
          rcases Nat.lt_or_eq_of_le hij with hlt | rfl
          · exact (hbody.nested hlt htail).extend [Mark.enter i] [Mark.exit i panicked]
          · obtain ⟨b,c,d,p,rfl,rfl,hb,hc,hd⟩ := hbody.called htail
            exact ⟨[],b,c,d,[],p,panicked,by simp,by simp,hb,hc,hd⟩
      · cases r <;> simp at hl

theorem exit_true_mem_seen {i : ℕ} {ms : List (Wrapper σ ε)} {s : σ} :
    Mark.exit i true ∈ seen halted i ms s ↔ (run halted stop ms s).2.isSome = true := by
  cases ms with
  | nil => simp [seen,run,stop]
  | cons m ms =>
    by_cases hs : halted s = true
    · simp [seen_of_halted hs,run,hs]
    · have hrest : ∀ t, Shape (i + 1) (seen halted (i + 1) ms t) := shape_seen (i + 1) ms
      have hno : Mark.exit i true ∉ during halted i m (run halted stop ms)
          (seen halted (i + 1) ms) s :=
        fun hmem => ((body_of_shape m s hrest).within _ hmem).2.2 rfl
      rw [seen_cons hs,run,if_neg hs]
      simp only [List.cons_append,List.mem_cons,List.mem_append,List.not_mem_nil,or_false,
        reduceCtorEq,hno,false_or,Mark.exit.injEq,true_and]
      exact eq_comm

end Nesting

section Notes

/-- A way for states to hold notes beside what they are. -/
structure Notebook (τ σ O : Type) where
  look : τ → σ
  notes : τ → List O
  join : σ → List O → τ
  look_join : ∀ s l, look (join s l) = s
  notes_join : ∀ s l, notes (join s l) = l

variable {τ : Type} (halted) (nb : Notebook τ σ (Mark σ))

def note (m : σ → Mark σ) (t : τ) : τ := nb.join (nb.look t) (nb.notes t ++ [m (nb.look t)])

def noteBody (i : ℕ) : Wrapper σ ε → Wrapper τ ε
  | .ret => .act (note nb fun _ => .exit i false) fun _ => .ret
  | .panic v => .act (note nb fun _ => .exit i true) fun _ => .panic v
  | .act f k =>
    .act (fun t => nb.join (f (nb.look t)) (nb.notes t ++ [.act i (nb.look t)]))
      fun t => noteBody i (k (nb.look t))
  | .call _ k =>
    .act (note nb fun s => .call i (halted s)) fun _ =>
      .call () fun o => .act (note nb fun _ => .back i) fun _ => noteBody i (k o)

/-- A chain whose wrappers note in the state when they are entered and left, their calls and their
actions. -/
def noteAll : ℕ → List (Wrapper σ ε) → List (Wrapper τ ε)
  | _,[] => []
  | i,m :: ms => .act (note nb fun _ => .enter i) (fun _ => noteBody halted nb i m) ::
      noteAll (i + 1) ms

variable {halted nb}

@[simp] theorem note_join (m : σ → Mark σ) (s : σ) (l : List (Mark σ)) :
    note nb m (nb.join s l) = nb.join s (l ++ [m s]) := by
  rw [note,nb.look_join,nb.notes_join]

theorem run_noteBody {callee : Effect σ ε} {noted : Effect τ ε} {rest : σ → List (Mark σ)}
    (hcallee : ∀ s l, noted (nb.join s l) = (nb.join (callee s).1 (l ++ rest s),(callee s).2))
    (i : ℕ) (m : Wrapper σ ε) (s : σ) (l : List (Mark σ)) :
    (noteBody halted nb i m).run (fun _ => noted) (nb.join s l) =
      (nb.join (m.run (fun _ => callee) s).1 (l ++ during halted i m callee rest s ++
        [Mark.exit i (m.run (fun _ => callee) s).2.isSome]),(m.run (fun _ => callee) s).2) := by
  induction m generalizing s l with
  | ret => simp [noteBody,during,Code.seen]
  | panic v => simp [noteBody,during,Code.seen]
  | act f k ih =>
    simp only [noteBody,Code.run_act,nb.look_join,nb.notes_join,ih]
    simp [during,Code.seen]
  | call q k ih =>
    simp only [noteBody,Code.run_act,Code.run_call,note_join,hcallee,ih]
    simp [during,Code.seen]

/-- What the wrappers of a chain note is what is seen of its run, and this is otherwise as without
the notes. -/
theorem run_noteAll {halted' : τ → Bool} (hhalted : ∀ t, halted' t = halted (nb.look t))
    (i : ℕ) (ms : List (Wrapper σ ε)) (s : σ) (l : List (Mark σ)) :
    run halted' stop (noteAll halted nb i ms) (nb.join s l) =
      (nb.join (run halted stop ms s).1 (l ++ seen halted i ms s),(run halted stop ms s).2) := by
  induction ms generalizing i s l with
  | nil => simp [noteAll,run,stop,seen]
  | cons m ms ih =>
    rw [noteAll,run,run,seen,hhalted,nb.look_join]
    split_ifs
    · rw [List.append_nil]
    · rw [Code.run_act,note_join,run_noteBody (ih (i + 1))]
      simp

end Notes

section Once

def borders (l : List (Mark σ)) : List Border := l.filterMap Mark.border

def through (i k : ℕ) : List Border :=
  (List.range' i (k + 1 - i)).map .entered ++ (List.range' i (k + 1 - i)).reverse.map .left

theorem through_self (i : ℕ) : through i i = [Border.entered i,Border.left i] := by
  simp [through]

theorem through_succ {i k : ℕ} (h : i + 1 ≤ k) :
    through i k = Border.entered i :: through (i + 1) k ++ [Border.left i] := by
  have hlen : k + 1 - i = (k + 1 - (i + 1)) + 1 := by omega
  simp only [through]
  rw [hlen,List.range'_succ]
  simp

/-- What is seen of a body that calls `rest` at most once: actions alone, or one call among
actions. -/
structure OneCall (i : ℕ) (rest : σ → List (Mark σ)) (halt : σ → Bool) (l : List (Mark σ)) :
    Prop where
  none : l.countP (Mark.isCall i) = 0 → borders l = [] ∧ ∀ x ∈ l, x.layer = i
  one : l.countP (Mark.isCall i) = 1 → ∃ t, borders l = borders (rest t) ∧
    Mark.call i (halt t) ∈ l ∧ (rest t).Sublist l ∧ ∀ x ∈ l, x.layer ≠ i → x ∈ rest t

theorem OneCall.append {i : ℕ} {rest : σ → List (Mark σ)} {halt : σ → Bool}
    {l l' : List (Mark σ)} (h : OneCall i rest halt l) (h' : OneCall i rest halt l') :
    OneCall i rest halt (l ++ l') := by
  have hborders : borders (l ++ l') = borders l ++ borders l' := List.filterMap_append
  constructor
  · rw [List.countP_append]
    intro hzero
    obtain ⟨hb,hl⟩ := h.none (by omega)
    obtain ⟨hb',hl'⟩ := h'.none (by omega)
    refine ⟨by rw [hborders,hb,hb',List.append_nil],fun x hx => ?_⟩
    rcases List.mem_append.mp hx with hx | hx
    · exact hl x hx
    · exact hl' x hx
  · rw [List.countP_append]
    intro hone
    rcases Nat.eq_zero_or_pos (l.countP (Mark.isCall i)) with hzero | hpos
    · obtain ⟨hb,hl⟩ := h.none hzero
      obtain ⟨t,hb',hcall,hsub,hrest⟩ := h'.one (by omega)
      refine ⟨t,by rw [hborders,hb,hb',List.nil_append],List.mem_append_right _ hcall,
        hsub.trans (List.sublist_append_right _ _),fun x hx hne => ?_⟩
      rcases List.mem_append.mp hx with hx | hx
      · exact absurd (hl x hx) hne
      · exact hrest x hx hne
    · obtain ⟨t,hb,hcall,hsub,hrest⟩ := h.one (by omega)
      obtain ⟨hb',hl'⟩ := h'.none (by omega)
      refine ⟨t,by rw [hborders,hb,hb',List.append_nil],List.mem_append_left _ hcall,
        hsub.trans (List.sublist_append_left _ _),fun x hx hne => ?_⟩
      rcases List.mem_append.mp hx with hx | hx
      · exact hrest x hx hne
      · exact absurd (hl' x hx) hne

theorem oneCall_seen (i : ℕ) (rest : σ → List (Mark σ)) (halt : σ → Bool)
    (callee : Effect σ ε) (m : Wrapper σ ε) (s : σ) :
    OneCall i rest halt (during halt i m callee rest s) := by
  apply Code.seen_induction
  · constructor <;> simp [borders]
  · exact fun h h' => h.append h'
  · intro t
    constructor <;> simp [borders,Mark.isCall,Mark.border,Mark.layer]
  · intro _ t
    constructor
    · simp [Mark.isCall]
    · intro _
      refine ⟨t,by simp [borders,List.filterMap_cons,Mark.border],by simp,?_,?_⟩
      · exact (List.sublist_append_left _ _).trans (List.sublist_cons_self _ _)
      · intro x hx hne
        simp only [List.cons_append,List.mem_cons,List.mem_append,List.not_mem_nil,or_false] at hx
        rcases hx with rfl | hx | rfl
        · exact absurd rfl hne
        · exact hx
        · exact absurd rfl hne

/-- If no wrapper calls the rest of the chain twice, the wrappers from `i` up to some `k` are
entered in order, each once, and left in the opposite order. Those before `k` have called on
in a state that was not halted; `k` is the last one, or did not call, or called in a halted
state. -/
theorem borders_seen {i : ℕ} {ms : List (Wrapper σ ε)} {s : σ} (hms : ms ≠ [])
    (hs : halted s = false)
    (honce : ∀ j, (seen halted i ms s).countP (Mark.isCall j) ≤ 1) :
    ∃ k, i ≤ k ∧ k < i + ms.length ∧ borders (seen halted i ms s) = through i k ∧
      (∀ j, i ≤ j → j < k → Mark.call j false ∈ seen halted i ms s) ∧
      (k + 1 = i + ms.length ∨ (∀ halt, Mark.call k halt ∉ seen halted i ms s) ∨
        Mark.call k true ∈ seen halted i ms s) := by
  induction ms generalizing i s with
  | nil => exact absurd rfl hms
  | cons m ms ih =>
    have hone := oneCall_seen i (seen halted (i + 1) ms) halted (run halted stop ms) m s
    have hseen := seen_cons (Bool.eq_false_iff.mp hs) i m ms
    generalize during halted i m (run halted stop ms) (seen halted (i + 1) ms) s = body
      at hone hseen
    generalize (m.run (fun _ => run halted stop ms) s).2.isSome = panicked at hseen
    have hborders : borders (seen halted i (m :: ms) s) =
        Border.entered i :: borders body ++ [Border.left i] := by
      simp [hseen,borders,Mark.border]
    have hcount : ∀ j, body.countP (Mark.isCall j) ≤ 1 := by
      intro j
      have hle := honce j
      rw [hseen] at hle
      simpa [Mark.isCall] using hle
    have hmem : ∀ {x}, x ∈ body → x ∈ seen halted i (m :: ms) s := by
      intro x hx
      simp [hseen,hx]
    have hof : ∀ {j halt}, Mark.call j halt ∈ seen halted i (m :: ms) s →
        Mark.call j halt ∈ body := by
      intro j halt hx
      simpa [hseen] using hx
    rcases Nat.eq_zero_or_pos (body.countP (Mark.isCall i)) with hzero | hpos
    · obtain ⟨hnil,_⟩ := hone.none hzero
      refine ⟨i,le_rfl,by simp,by rw [hborders,hnil,through_self]; rfl,by omega,.inr (.inl ?_)⟩
      intro halt hx
      have hno := List.countP_eq_zero.mp hzero _ (hof hx)
      simp [Mark.isCall] at hno
    · have hcalled := hcount i
      obtain ⟨t,hbt,hcall,hsub,hrest⟩ := hone.one (by omega)
      by_cases hlast : ms = []
      · subst hlast
        refine ⟨i,le_rfl,by simp,?_,by omega,.inl (by simp)⟩
        rw [hborders,hbt,through_self]
        rfl
      · cases ht : halted t with
        | true =>
          have hnil := seen_of_halted ht (i + 1) ms
          refine ⟨i,le_rfl,by simp,?_,by omega,.inr (.inr (hmem (ht ▸ hcall)))⟩
          rw [hborders,hbt,hnil,through_self]
          rfl
        | false =>
          have hinner : ∀ j, (seen halted (i + 1) ms t).countP (Mark.isCall j) ≤ 1 :=
            fun j => (hsub.countP_le).trans (hcount j)
          obtain ⟨k,hik,hk,hbk,hbefore,hend⟩ := ih hlast ht hinner
          refine ⟨k,by omega,by simp; omega,?_,?_,?_⟩
          · rw [hborders,hbt,hbk,through_succ hik]
          · intro j hij hjk
            rcases Nat.lt_or_eq_of_le hij with hlt | rfl
            · exact hmem (hsub.subset (hbefore j hlt hjk))
            · exact hmem (ht ▸ hcall)
          · rcases hend with hend | hend | hend
            · exact .inl (by simp; omega)
            · refine .inr (.inl fun halt hx => hend halt ?_)
              exact hrest _ (hof hx) (by simp [Mark.layer]; omega)
            · exact .inr (.inr (hmem (hsub.subset hend)))

end Once

end Onion
end P2PForge
