import P2PForge.Router

/-! Operations as labels.
`sc.Operation()` may be used as the label of a metric, because only the key of a table can be
recorded there. To say whose table, the routers of a pipeline are watched: beside the world
stands a record of the matches they have made, which nothing else can reach or read. -/
namespace P2PForge

variable {ρ V W : Type}

/-- A match that a router has made: the field it looks at, which keys its table has, the payload,
and the operation, which the payload names and the table has. -/
structure Match (json : JSON) where
  fieldName : String
  table : String → Bool
  rawBytes : List UInt8
  operation : String
  names : json.Names fieldName rawBytes operation
  mem : table operation = true

abbrev Watching (json : JSON) (ρ V W : Type) := State ρ V (W × List (Match json))

variable {json : JSON}

def State.watching (json : JSON) (s : State ρ V W) : Watching json ρ V W :=
  ⟨s.sc,s.stream,s.ctxDone,s.pools,(s.world,[])⟩

def noteMatch (m : Match json) (t : Watching json ρ V W) : Watching json ρ V W :=
  { t with world := (t.world.1,t.world.2 ++ [m]) }

/-- `OperationRouter`, which records its match in the same action as the operation. -/
def watchedRouter (json : JSON) (fieldName : String)
    (routes : String → Option (Middleware ρ V (W × List (Match json)))) :
    Middleware ρ V (W × List (Match json)) :=
  .act id fun t =>
    match h : json.route fieldName routes t.sc.rawBytes with
    | .error e => .act (setErr e) fun _ => .ret
    | .ok (op,handler) =>
      have hop := (json.route_eq_ok_iff).mp h
      .act (fun u => noteMatch ⟨fieldName,fun key => (routes key).isSome,t.sc.rawBytes,op,hop.1,
        by simp [hop.2]⟩ (setOperation op u)) fun _ => handler

/-- The first middleware is the second one with its routers watched. Apart from routers and
`Chain`s there are only middlewares that do not call `SetOperation`. -/
inductive Watched (json : JSON) :
    Middleware ρ V (W × List (Match json)) → Middleware ρ V W → Prop
  | own {mw} : mw.Each (fun s s' => s'.sc.operation = s.sc.operation) →
    Watched json (beside mw) mw
  | chain {pairs : List (Middleware ρ V (W × List (Match json)) × Middleware ρ V W)} :
    (∀ x ∈ pairs, Watched json x.1 x.2) →
      Watched json (P2PForge.chain (pairs.map Prod.fst)) (P2PForge.chain (pairs.map Prod.snd))
  | router {fieldName : String}
    {routes : String → Option (Middleware ρ V (W × List (Match json)) × Middleware ρ V W)} :
    (∀ op x, routes op = some x → Watched json x.1 x.2) →
      Watched json (watchedRouter json fieldName fun op => (routes op).map Prod.fst)
        (operationRouter json fieldName fun op => (routes op).map Prod.snd)

section Shadows

variable {pairs : List (Middleware ρ V (W × List (Match json)) × Middleware ρ V W)}
  {routes : String → Option (Middleware ρ V (W × List (Match json)) × Middleware ρ V W)}

theorem shadows_chain (h : ∀ x ∈ pairs, Code.Shadows State.inner x.1 x.2) :
    Code.Shadows State.inner (chain (pairs.map Prod.fst)) (chain (pairs.map Prod.snd)) := by
  induction pairs with
  | nil => exact .call () Code.shadows_finish
  | cons x pairs ih =>
    obtain ⟨hx,hpairs⟩ := List.forall_mem_cons.mp h
    refine .act (fun _ => rfl) fun t => ?_
    change Code.Shadows State.inner (if failed t.inner then _ else _) _
    split_ifs
    · exact .ret
    · exact hx.inline fun _ => ih hpairs

theorem route_pairs (json : JSON) (fieldName : String) (rawBytes : List UInt8) :
    (∃ e, json.route fieldName (fun op => (routes op).map Prod.fst) rawBytes = .error e ∧
      json.route fieldName (fun op => (routes op).map Prod.snd) rawBytes = .error e) ∨
    ∃ op x, routes op = some x ∧
      json.route fieldName (fun op => (routes op).map Prod.fst) rawBytes = .ok (op,x.1) ∧
      json.route fieldName (fun op => (routes op).map Prod.snd) rawBytes = .ok (op,x.2) := by
  simp only [JSON.route]
  cases json.object rawBytes with
  | error e => exact .inl ⟨_,rfl,rfl⟩
  | ok envelope =>
    dsimp only
    cases envelope fieldName with
    | none => exact .inl ⟨_,rfl,rfl⟩
    | some raw =>
      dsimp only
      cases json.string raw with
      | error e => exact .inl ⟨_,rfl,rfl⟩
      | ok op =>
        dsimp only
        cases hroute : routes op with
        | none => exact .inl ⟨_,rfl,rfl⟩
        | some x => exact .inr ⟨op,x,hroute,rfl,rfl⟩

theorem shadows_watchedRouter (fieldName : String)
    (h : ∀ op x, routes op = some x → Code.Shadows State.inner x.1 x.2) :
    Code.Shadows State.inner
      (watchedRouter json fieldName fun op => (routes op).map Prod.fst)
      (operationRouter json fieldName fun op => (routes op).map Prod.snd) := by
  refine .act (fun _ => rfl) fun t => ?_
  rcases route_pairs json fieldName t.inner.sc.rawBytes with
    ⟨e,hfst,hsnd⟩ | ⟨op,x,hx,hfst,hsnd⟩
  · rw [hsnd]
    split
    · rename_i e' h'
      obtain rfl : e = e' := Except.error.inj (hfst.symm.trans h')
      exact .act (fun _ => rfl) fun _ => .ret
    · rename_i h'
      cases hfst.symm.trans h'
  · rw [hsnd]
    split
    · rename_i h'
      cases hfst.symm.trans h'
    · rename_i h'
      obtain ⟨rfl,rfl⟩ := Prod.mk.inj (Except.ok.inj (hfst.symm.trans h'))
      exact .act (fun _ => rfl) fun _ => h op x hx

theorem Watched.shadows {mw' : Middleware ρ V (W × List (Match json))} {mw : Middleware ρ V W}
    (h : Watched json mw' mw) : Code.Shadows State.inner mw' mw := by
  induction h with
  | own _ => exact Code.shadows_lift (fun _ _ => rfl) _
  | chain _ ih => exact shadows_chain ih
  | router _ ih => exact shadows_watchedRouter _ ih

end Shadows

def StreamContext.operationName (sc : StreamContext V) : String := sc.operation.getD ""

/-- What can have become of the operation between two states: it is the same, or that of a match
which is on record. -/
structure Labels (t t' : Watching json ρ V W) : Prop where
  grows : t.world.2 <+: t'.world.2
  operation : t'.sc.operation = t.sc.operation ∨
    ∃ m ∈ t'.world.2, t'.sc.operation = some m.operation

theorem Labels.of_same {t t' : Watching json ρ V W} (hworld : t'.world.2 = t.world.2)
    (hop : t'.sc.operation = t.sc.operation) : Labels t t' :=
  ⟨hworld ▸ List.prefix_rfl,.inl hop⟩

theorem Labels.refl (t : Watching json ρ V W) : Labels t t := .of_same rfl rfl

theorem Labels.trans {t t' t'' : Watching json ρ V W} (h : Labels t t') (h' : Labels t' t'') :
    Labels t t'' := by
  refine ⟨h.grows.trans h'.grows,?_⟩
  rcases h'.operation with hsame | hmatch
  · rw [hsame]
    refine h.operation.imp_right ?_
    rintro ⟨m,hm,hop⟩
    exact ⟨m,h'.grows.subset hm,hop⟩
  · exact .inr hmatch

theorem labels_noteMatch (m : Match json) (t : Watching json ρ V W) :
    Labels t (noteMatch m (setOperation m.operation t)) :=
  ⟨List.prefix_append _ _,.inr ⟨m,by simp [noteMatch],rfl⟩⟩

theorem each_watchedRouter {fieldName : String}
    {routes : String → Option (Middleware ρ V (W × List (Match json)))}
    (h : ∀ op handler, routes op = some handler → handler.Each Labels) :
    (watchedRouter json fieldName routes).Each Labels := by
  intro t
  refine ⟨.refl t,?_⟩
  beta_reduce
  split
  · exact fun u => ⟨.of_same rfl rfl,trivial⟩
  · rename_i op handler hroute
    exact fun u => ⟨labels_noteMatch _ u,h op handler (json.route_eq_ok_iff.mp hroute).2⟩

theorem Watched.each {mw' : Middleware ρ V (W × List (Match json))} {mw : Middleware ρ V W}
    (h : Watched json mw' mw) : mw'.Each Labels := by
  induction h with
  | own hmw => exact Code.each_lift (fun f t hf => .of_same rfl hf) hmw
  | @chain pairs _ ih =>
    refine each_chain Labels.refl fun mw hmw => ?_
    obtain ⟨x,hx,rfl⟩ := List.mem_map.mp hmw
    exact ih x hx
  | router _ ih =>
    refine each_watchedRouter fun op handler hroute => ?_
    obtain ⟨x,hx,rfl⟩ := Option.map_eq_some_iff.mp hroute
    exact ih op x hx

def Labelled (t : Watching json ρ V W) : Prop :=
  t.sc.operationName = "" ∨ ∃ m ∈ t.world.2, t.sc.operationName = m.operation

theorem Labels.labelled {t t' : Watching json ρ V W} (h : Labels t t')
    (ht : t.sc.operation = none) : Labelled t' := by
  rw [Labelled,StreamContext.operationName]
  rcases h.operation with hsame | ⟨m,hm,hop⟩
  · exact .inl (by rw [hsame,ht]; rfl)
  · exact .inr ⟨m,hm,by rw [hop]; rfl⟩

/-- What every entry of a router comes to, whatever `next` does and whatever is looked at. -/
structure EntersOne (json : JSON) (fieldName : String)
    (routes : String → Option (Middleware ρ V W)) : Prop where
  /-- If the payload names a key of the table, the router records it and goes on with the handler
  that is stored under it. -/
  found : ∀ {O : Type} (see : State ρ V W → List O) (within : Unit → State ρ V W → List O)
    (next : Effect (State ρ V W) (Panic V)) (s : State ρ V W) (op : String) (handler),
    json.Names fieldName s.sc.rawBytes op → routes op = some handler →
      (operationRouter json fieldName routes).run (fun _ => next) s =
          handler.run (fun _ => next) (setOperation op s) ∧
        (operationRouter json fieldName routes).seen see (fun _ => next) within s =
          see s ++ see s ++ handler.seen see (fun _ => next) within (setOperation op s)
  /-- Otherwise it sets `sc.Err`, leaves the operation alone and calls nothing. -/
  lost : ∀ {O : Type} (see : State ρ V W → List O) (within : Unit → State ρ V W → List O)
    (next : Effect (State ρ V W) (Panic V)) (s : State ρ V W),
    (∀ op, json.Names fieldName s.sc.rawBytes op → routes op = none) →
      ∃ out, (operationRouter json fieldName routes).run (fun _ => next) s = (out,none) ∧
        out.sc.err ≠ none ∧ out.sc.operation = s.sc.operation ∧
        (operationRouter json fieldName routes).seen see (fun _ => next) within s = see s ++ see s

theorem operationRouter_entersOne (json : JSON) (fieldName : String)
    (routes : String → Option (Middleware ρ V W)) : EntersOne json fieldName routes := by
  constructor
  · intro O see within next s op handler hnames hhandler
    have hroute := json.route_eq_ok_iff.mpr ⟨hnames,hhandler⟩
    simp [operationRouter,Code.seen,hroute]
  · intro O see within next s hnone
    cases hroute : json.route fieldName routes s.sc.rawBytes with
    | ok found =>
      obtain ⟨hnames,hsome⟩ := json.route_eq_ok_iff.mp hroute
      rw [hnone _ hnames] at hsome
      cases hsome
    | error e =>
      refine ⟨setErr e s,?_,by simp [setErr],rfl,?_⟩
      · simp [operationRouter,hroute]
      · simp [operationRouter,Code.seen,hroute]

open Pipeline

/-- The recorded operation is bounded by the routing tables. In every pipeline that is built from
routers, `Chain`s and middlewares which do not call `SetOperation`, the operation is at every
point the empty string or what a router on record has matched, where keeping the record changes
nothing; and every entry of a router is for one handler or for none. -/
theorem operation_bounded
    (pairs : List (Middleware ρ V (W × List (Match json)) × Middleware ρ V W))
    (hpairs : ∀ x ∈ pairs, Watched json x.1 x.2) (s : State ρ V W)
    (hs : s.sc.operation = none) :
    let watched := newPipeline (pairs.map Prod.fst)
    let p := newPipeline (pairs.map Prod.snd)
    let t := s.watching json
    (((watched.run 0 t).1.inner,(watched.run 0 t).2) = p.run 0 s ∧
      (watched.trace 0 t).map (Mark.map State.inner) = p.trace 0 s) ∧
    ((∀ i u, .act i u ∈ watched.trace 0 t → Labelled u) ∧ Labelled (watched.run 0 t).1) ∧
    ∀ (fieldName : String) (routes : String → Option (Middleware ρ V W)),
      EntersOne json fieldName routes := by
  intro watched p t
  have hfailed : ∀ u : Watching json ρ V W, failed u = failed u.inner := fun _ => rfl
  have hshadows : ∀ x ∈ pairs, Code.Shadows State.inner x.1 x.2 :=
    fun x hx => (hpairs x hx).shadows
  have heach : ∀ mw ∈ pairs.map Prod.fst, mw.Each Labels := by
    intro mw hmw
    obtain ⟨x,hx,rfl⟩ := List.mem_map.mp hmw
    exact (hpairs x hx).each
  refine ⟨⟨?_,?_⟩,⟨?_,?_⟩,operationRouter_entersOne json⟩
  · rw [run_eq_onion,run_eq_onion]
    exact Onion.covers_run hfailed (fun _ => rfl) hshadows t
  · rw [trace_eq_seen,trace_eq_seen]
    exact Onion.map_seen hfailed hshadows 0 t
  · intro i u hu
    rw [trace_eq_seen] at hu
    exact (Onion.rel_of_act_mem_seen Labels.refl Labels.trans heach hu).labelled hs
  · rw [run_eq_onion]
    exact (Onion.run_rel Labels.refl Labels.trans Labels.refl heach t).labelled hs

/-- A payload is taken for an object that has it under every name, and for its first character. -/
def JSON.initial : JSON where
  object rawBytes := .ok fun _ => some rawBytes
  string raw := .ok (String.ofList ((raw.take 1).map fun b => Char.ofNat b.toNat))

def answering : Middleware Unit Unit Unit :=
  .act (fun s => { s with sc := { s.sc with response := some () } }) fun _ => .ret

def singleRoute (op : String) :
    Option (Middleware Unit Unit (Unit × List (Match JSON.initial)) × Middleware Unit Unit Unit) :=
  if op = "a" then some (beside answering,answering) else none

/-- A request for `a` is recorded as such, and its handler has answered. -/
theorem operation_bounded_singleRoute :
    let pairs := [(watchedRouter JSON.initial "op" fun op => (singleRoute op).map Prod.fst,
      operationRouter JSON.initial "op" fun op => (singleRoute op).map Prod.snd)]
    let watched := newPipeline (pairs.map Prod.fst)
    let s := { State.blank with sc := { State.blank.sc with rawBytes := [97] } }
    let t := s.watching JSON.initial
    (∀ x ∈ pairs, Watched JSON.initial x.1 x.2) ∧
      ((watched.run 0 t).1.sc.operationName = "a" ∧ (watched.run 0 t).1.sc.response = some () ∧
        (watched.run 0 t).1.world.2.map Match.operation = ["a"]) ∧
      (∀ i u, .act i u ∈ watched.trace 0 t → Labelled u) ∧ Labelled (watched.run 0 t).1 := by
  intro pairs watched s t
  have hpairs : ∀ x ∈ pairs, Watched JSON.initial x.1 x.2 := by
    intro x hx
    obtain rfl := List.mem_singleton.mp hx
    refine .router fun op x hx => ?_
    unfold singleRoute at hx
    split_ifs at hx
    obtain rfl := Option.some.inj hx
    exact .own fun _ => ⟨rfl,trivial⟩
  refine ⟨hpairs,?_,(operation_bounded pairs hpairs s rfl).2.1⟩
  rw [run_eq_onion]
  exact ⟨rfl,rfl,rfl⟩

end P2PForge
