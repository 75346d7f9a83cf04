import Mathlib

/-! Who enters the routing table.
The DHT asks a filter before it puts a peer in its routing table. The filter goes through the
connections to the peer, and through the components of their addresses, and stops as soon as it
can: at the first connection that is good enough, and at the first component of a relay. -/
namespace P2PForge.RoutingFilter

inductive Direction
  | unknown
  | inbound
  | outbound
  deriving DecidableEq

/-- A component of a multiaddress, as far as the code of its protocol goes. -/
structure Component where
  code : ℕ
  deriving DecidableEq

def pCircuit : ℕ := 290

structure Conn where
  direction : Direction
  limited : Bool
  remoteMultiaddr : List Component
  deriving DecidableEq

/-- `ma.ForEach` with a callback on the variables `σ` that it has captured: it goes on as long as
the callback returns true. -/
def forEach {σ : Type} (cb : Component → σ → Bool × σ) : List Component → σ → σ
  | [],s => s
  | comp :: rest,s => if (cb comp s).1 then forEach cb rest (cb comp s).2 else (cb comp s).2

/-- The callback of `isDirect`, on its variable `relayed`. -/
def noteRelay (comp : Component) (_ : Bool) : Bool × Bool :=
  let relayed := comp.code == pCircuit
  (!relayed,relayed)

def isDirect (c : Conn) : Bool :=
  if c.limited then false else !forEach noteRelay c.remoteMultiaddr false

def anyDialled : List Conn → Bool
  | [] => false
  | c :: rest => if c.direction == .outbound && isDirect c then true else anyDialled rest

/-- `dialableFilter` on a network with the given `ConnsToPeer`. -/
def dialableFilter {PeerID : Type} (connsToPeer : PeerID → List Conn) (p : PeerID) : Bool :=
  anyDialled (connsToPeer p)

/-- A relay at any place of the address is noticed: every later component would have overwritten
the variable, and none is visited. -/
theorem forEach_noteRelay (addr : List Component) :
    forEach noteRelay addr false = true ↔ ∃ comp ∈ addr, comp.code = pCircuit := by
  induction addr with
  | nil => simp [forEach]
  | cons comp rest ih =>
    by_cases hcode : comp.code = pCircuit
    · have hstop : noteRelay comp false = (false,true) := by simp [noteRelay,hcode]
      simp [forEach,hstop,hcode]
    · have hgo : noteRelay comp false = (true,false) := by simp [noteRelay,hcode]
      simp [forEach,hgo,hcode,ih]

def Direct (c : Conn) : Prop :=
  c.limited = false ∧ ∀ comp ∈ c.remoteMultiaddr, comp.code ≠ pCircuit

theorem isDirect_iff (c : Conn) : isDirect c = true ↔ Direct c := by
  have hrelay := forEach_noteRelay c.remoteMultiaddr
  unfold isDirect Direct
  cases c.limited with
  | true => simp
  | false =>
    rw [if_neg Bool.false_ne_true,Bool.not_eq_true',← Bool.not_eq_true,hrelay]
    push Not
    simp

theorem anyDialled_iff (conns : List Conn) :
    anyDialled conns = true ↔ ∃ c ∈ conns, c.direction = .outbound ∧ Direct c := by
  induction conns with
  | nil => simp [anyDialled]
  | cons c rest ih =>
    rw [anyDialled,List.exists_mem_cons_iff,← ih,← isDirect_iff]
    split_ifs with hgood
    · simpa using Or.inl (by simpa using hgood)
    · simp_all

/-- The routing table filter admits exactly the peers that were dialled directly, in whatever order
their connections are listed. -/
theorem dialableFilter_iff {PeerID : Type} (connsToPeer : PeerID → List Conn) (p : PeerID) :
    (dialableFilter connsToPeer p = true ↔ ∃ c ∈ connsToPeer p, c.direction = .outbound ∧
      c.limited = false ∧ ∀ comp ∈ c.remoteMultiaddr, comp.code ≠ pCircuit) ∧
    ∀ connsToPeer' : PeerID → List Conn, (connsToPeer' p).Perm (connsToPeer p) →
      dialableFilter connsToPeer' p = dialableFilter connsToPeer p := by
  refine ⟨anyDialled_iff _,?_⟩
  intro connsToPeer' hperm
  rw [Bool.eq_iff_iff,dialableFilter,dialableFilter,anyDialled_iff,anyDialled_iff]
  simp only [hperm.mem_iff]

end P2PForge.RoutingFilter
