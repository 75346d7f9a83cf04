import P2PForge.HandleStream

/-! Routing by operation.
`OperationRouter` looks one field of the request up in a table of handlers and goes on with the
handler it finds there, which gets the router's own `next`. Decoding JSON is left open: two
given partial functions, from bytes to the fields of an object and from the bytes of a field
to a string. -/
namespace P2PForge

variable {ρ V W : Type}

/-- `json.Unmarshal` at the two types the router uses it with. -/
structure JSON where
  object : List UInt8 → Except GoErr (String → Option (List UInt8))
  string : List UInt8 → Except GoErr String

namespace JSON

variable (json : JSON)

def route (fieldName : String) (routes : String → Option (Middleware ρ V W))
    (rawBytes : List UInt8) : Except GoErr (String × Middleware ρ V W) :=
  match json.object rawBytes with
  | .error e => .error (.wrap "parse operation envelope: " e)
  | .ok envelope =>
    match envelope fieldName with
    | none => .error (.sentinel .errMissingOperation)
    | some raw =>
      match json.string raw with
      | .error e => .error (.wrap "parse operation value: " e)
      | .ok opValue =>
        match routes opValue with
        | none => .error (.sentinel .errUnknownOperation)
        | some handler => .ok (opValue,handler)

/-- The payload is an object whose field holds the string `op`. -/
def Names (fieldName : String) (rawBytes : List UInt8) (op : String) : Prop :=
  ∃ envelope raw, json.object rawBytes = .ok envelope ∧ envelope fieldName = some raw ∧
    json.string raw = .ok op

theorem route_eq_ok_iff {fieldName : String} {routes : String → Option (Middleware ρ V W)}
    {rawBytes : List UInt8} {op : String} {handler : Middleware ρ V W} :
    json.route fieldName routes rawBytes = .ok (op,handler) ↔
      json.Names fieldName rawBytes op ∧ routes op = some handler := by
  constructor
  · fun_cases route json fieldName routes rawBytes with
    | case5 envelope henvelope raw hraw opValue hop handler hroute =>
      rintro ⟨⟩
      exact ⟨⟨envelope,raw,henvelope,hraw,hop⟩,hroute⟩
    | _ => exact nofun
  · rintro ⟨⟨envelope,raw,henvelope,hraw,hop⟩,hroute⟩
    simp only [route,henvelope,hraw,hop,hroute]

end JSON

def setOperation (op : String) (s : State ρ V W) : State ρ V W :=
  { s with sc := { s.sc with operation := some op } }

def operationRouter (json : JSON) (fieldName : String)
    (routes : String → Option (Middleware ρ V W)) : Middleware ρ V W :=
  .act id fun s =>
    match json.route fieldName routes s.sc.rawBytes with
    | .error e => .act (setErr e) fun _ => .ret
    -- recorded only once a route has matched
    | .ok (op,handler) => .act (setOperation op) fun _ => handler

theorem each_operationRouter {R : State ρ V W → State ρ V W → Prop} (hid : ∀ s, R s s)
    (herr : ∀ e s, R s (setErr e s)) (hop : ∀ op s, R s (setOperation op s)) {json : JSON}
    {fieldName : String} {routes : String → Option (Middleware ρ V W)}
    (hroutes : ∀ op handler, routes op = some handler → handler.Each R) :
    (operationRouter json fieldName routes).Each R := by
  intro s
  refine ⟨hid s,?_⟩
  beta_reduce
  cases hroute : json.route fieldName routes s.sc.rawBytes with
  | error e => exact fun s => ⟨herr e s,trivial⟩
  | ok found => exact fun s => ⟨hop found.1 s,hroutes _ _ (json.route_eq_ok_iff.mp hroute).2⟩

end P2PForge
