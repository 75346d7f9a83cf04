import P2PForge.Computation

/-! Who is connected, as the callbacks tell it.
libp2p reports connections, and a peer may have several of them. The server passes each report
on with nothing but the peer in it, so a callback cannot tell a peer that has gone from one that
has lost one of its connections. -/
namespace P2PForge
namespace Presence

structure Conn where
  remotePeer : String
  id : ℕ
  deriving DecidableEq

inductive Notice
  | connected (c : Conn)
  | disconnected (c : Conn)

variable {W ε : Type}

/-- A callback acts on a world when it is passed a peer, and may end with a panic. -/
abbrev Callback (W ε : Type) := String → Effect W ε

/-- `safeCallback`: a panic is recovered, and what was done before it stays done. -/
def safeCallback (fn : Callback W ε) (pid : String) (w : W) : W := (fn pid w).1

structure Hooks (W ε : Type) where
  onConnected : List (Callback W ε)
  onDisconnected : List (Callback W ε)

/-- `ConnectedF` and `DisconnectedF`, with the goroutines of the callbacks one after the other. -/
def Hooks.notify (hooks : Hooks W ε) (w : W) : Notice → W
  | .connected c => hooks.onConnected.foldl (fun w fn => safeCallback fn c.remotePeer w) w
  | .disconnected c => hooks.onDisconnected.foldl (fun w fn => safeCallback fn c.remotePeer w) w

def after (conns : List Conn) : Notice → List Conn
  | .connected c => c :: conns
  | .disconnected c => conns.erase c

/-- What can be reported next: that a connection was opened which is not open, or that one was
closed which is. -/
def Possible (conns : List Conn) : Notice → Prop
  | .connected c => c ∉ conns
  | .disconnected c => c ∈ conns

def Reports (conns : List Conn) : List Notice → Prop
  | [] => True
  | n :: ns => Possible conns n ∧ Reports (after conns n) ns

def present (conns : List Conn) : Set String := { pid | ∃ c ∈ conns, c.remotePeer = pid }

/-- The callbacks keep a set of peers: those for connections insert the peer into it and those
for disconnections delete it, while others may leave the set alone. -/
structure Tracks (peers : W → Set String) (hooks : Hooks W ε) : Prop where
  connected : ∀ fn ∈ hooks.onConnected, ∀ pid w, peers (safeCallback fn pid w) = peers w ∨
    peers (safeCallback fn pid w) = insert pid (peers w)
  inserts : ∃ fn ∈ hooks.onConnected, ∀ pid w, peers (safeCallback fn pid w) = insert pid (peers w)
  disconnected : ∀ fn ∈ hooks.onDisconnected, ∀ pid w, peers (safeCallback fn pid w) = peers w ∨
    peers (safeCallback fn pid w) = peers w \ {pid}
  deletes : ∃ fn ∈ hooks.onDisconnected, ∀ pid w, peers (safeCallback fn pid w) = peers w \ {pid}

/-- The set is that of the peers with an open connection, at first and after every event. -/
def TruePresence (peers : W → Set String) (hooks : Hooks W ε) (w : W) (conns : List Conn) :
    List Notice → Prop
  | [] => peers w = present conns
  | n :: ns => peers w = present conns ∧
    TruePresence peers hooks (hooks.notify w n) (after conns n) ns

/-- A connection is closed only when its peer has no other one. -/
def ClosesLast (conns : List Conn) : List Notice → Prop
  | [] => True
  | n :: ns => (∀ c, n = .disconnected c → ∀ d ∈ conns, d.remotePeer = c.remotePeer → d = c) ∧
    ClosesLast (after conns n) ns

section Callbacks

variable {peers : W → Set String} {pid : String} {F : Set String → Set String}
  (hF : ∀ s, F (F s) = F s)

include hF

theorem peers_foldl {fns : List (Callback W ε)}
    (hfns : ∀ fn ∈ fns, ∀ w, peers (safeCallback fn pid w) = peers w ∨
      peers (safeCallback fn pid w) = F (peers w)) (w : W) :
    peers (fns.foldl (fun w fn => safeCallback fn pid w) w) = peers w ∨
      peers (fns.foldl (fun w fn => safeCallback fn pid w) w) = F (peers w) := by
  induction fns generalizing w with
  | nil => exact .inl rfl
  | cons fn fns ih =>
    obtain ⟨hfn,htail⟩ := List.forall_mem_cons.mp hfns
    rw [List.foldl_cons]
    have hrest := ih htail (safeCallback fn pid w)
    rcases hfn w with heq | heq <;> rw [heq] at hrest
    · exact hrest
    · rw [hF,or_self] at hrest
      exact .inr hrest

theorem peers_foldl_of_mem {fns : List (Callback W ε)}
    (hfns : ∀ fn ∈ fns, ∀ w, peers (safeCallback fn pid w) = peers w ∨
      peers (safeCallback fn pid w) = F (peers w))
    (hmem : ∃ fn ∈ fns, ∀ w, peers (safeCallback fn pid w) = F (peers w)) (w : W) :
    peers (fns.foldl (fun w fn => safeCallback fn pid w) w) = F (peers w) := by
  induction fns generalizing w with
  | nil =>
    obtain ⟨_,hin,_⟩ := hmem
    cases hin
  | cons fn fns ih =>
    obtain ⟨hfn,htail⟩ := List.forall_mem_cons.mp hfns
    obtain ⟨fn',hin,hfn'⟩ := hmem
    rw [List.foldl_cons]
    rcases List.mem_cons.mp hin with rfl | hin
    · have hrest := peers_foldl hF htail (safeCallback fn' pid w)
      rwa [hfn' w,hF,or_self] at hrest
    · rw [ih htail ⟨fn',hin,hfn'⟩]
      rcases hfn w with heq | heq <;> rw [heq]
      exact hF _

end Callbacks

theorem present_erase_iff {conns : List Conn} {c : Conn} (hconns : conns.Nodup) :
    present conns \ {c.remotePeer} = present (conns.erase c) ↔
      ∀ d ∈ conns, d.remotePeer = c.remotePeer → d = c := by
  constructor
  · intro heq d hd hpeer
    by_contra hne
    have hin : c.remotePeer ∈ present (conns.erase c) :=
      ⟨d,(List.mem_erase_of_ne hne).mpr hd,hpeer⟩
    rw [← heq] at hin
    exact hin.2 rfl
  · intro hlast
    ext pid
    constructor
    · rintro ⟨⟨d,hd,rfl⟩,hne⟩
      have hdc : d ≠ c := by
        rintro rfl
        exact hne rfl
      exact ⟨d,(List.mem_erase_of_ne hdc).mpr hd,rfl⟩
    · rintro ⟨d,hd,rfl⟩
      obtain ⟨hdc,hd⟩ := (hconns.mem_erase_iff).mp hd
      exact ⟨⟨d,hd,rfl⟩,fun hpeer => hdc (hlast d hd hpeer)⟩

theorem Possible.nodup {conns : List Conn} {n : Notice} (hn : Possible conns n)
    (hconns : conns.Nodup) : (after conns n).Nodup := by
  cases n with
  | connected c => exact List.nodup_cons.mpr ⟨hn,hconns⟩
  | disconnected c => exact hconns.erase c

section Tracking

variable {peers : W → Set String} {hooks : Hooks W ε} (h : Tracks peers hooks)

include h

theorem Tracks.notify_connected (w : W) (c : Conn) :
    peers (hooks.notify w (.connected c)) = insert c.remotePeer (peers w) := by
  refine peers_foldl_of_mem (F := insert c.remotePeer) ?_ ?_ ?_ w
  · exact fun s => Set.insert_eq_of_mem (Set.mem_insert _ s)
  · exact fun fn hfn w => h.connected fn hfn c.remotePeer w
  · obtain ⟨fn,hfn,hinsert⟩ := h.inserts
    exact ⟨fn,hfn,hinsert c.remotePeer⟩

theorem Tracks.notify_disconnected (w : W) (c : Conn) :
    peers (hooks.notify w (.disconnected c)) = peers w \ {c.remotePeer} := by
  refine peers_foldl_of_mem (F := (· \ {c.remotePeer})) ?_ ?_ ?_ w
  · intro s
    simp
  · exact fun fn hfn w => h.disconnected fn hfn c.remotePeer w
  · obtain ⟨fn,hfn,hdelete⟩ := h.deletes
    exact ⟨fn,hfn,hdelete c.remotePeer⟩

/-- One event: the set stays right exactly if it is not the close of one connection of several. -/
theorem Tracks.step_iff {w : W} {conns : List Conn} (hw : peers w = present conns)
    (hconns : conns.Nodup) (n : Notice) :
    peers (hooks.notify w n) = present (after conns n) ↔
      ∀ c, n = .disconnected c → ∀ d ∈ conns, d.remotePeer = c.remotePeer → d = c := by
  cases n with
  | connected c =>
    refine iff_of_true ?_ nofun
    rw [h.notify_connected,hw]
    ext pid
    simp [present,after,eq_comm]
  | disconnected c =>
    rw [h.notify_disconnected,hw,after,present_erase_iff hconns]
    simp

theorem Tracks.run_iff {ns : List Notice} {w : W} {conns : List Conn} (hw : peers w = present conns)
    (hconns : conns.Nodup) (hns : Reports conns ns) :
    TruePresence peers hooks w conns ns ↔ ClosesLast conns ns := by
  induction ns generalizing w conns with
  | nil => exact iff_of_true hw trivial
  | cons n ns ih =>
    have hnext := hns.1.nodup hconns
    have hstep := h.step_iff hw hconns n
    rw [TruePresence,ClosesLast,and_iff_right hw]
    constructor
    · intro htrue
      have hfirst : peers (hooks.notify w n) = present (after conns n) := by
        cases ns with
        | nil => exact htrue
        | cons m ns => exact htrue.1
      exact ⟨hstep.mp hfirst,(ih hfirst hnext hns.2).mp htrue⟩
    · rintro ⟨hlast,hrest⟩
      exact (ih (hstep.mpr hlast) hnext hns.2).mpr hrest

/-- The set that the callbacks keep is that of the connected peers, after every event, exactly if
no connection is closed while its peer has another one. -/
theorem truePresence_iff {w : W} (hw : peers w = ∅) {ns : List Notice} (hns : Reports [] ns) :
    TruePresence peers hooks w [] ns ↔ ClosesLast [] ns := by
  refine h.run_iff ?_ List.nodup_nil hns
  rw [hw]
  simp [present]

end Tracking

/-- A presence cache: one callback stores the peer, the other deletes it. -/
def tracker : Hooks (Finset String) Unit :=
  ⟨[fun pid w => (insert pid w,none)],[fun pid w => (w.erase pid,none)]⟩

theorem tracks_tracker : Tracks (fun w : Finset String => (w : Set String)) tracker := by
  constructor <;> simp [tracker,safeCallback]

def overlapping : List Notice :=
  [.connected ⟨"p",0⟩,.connected ⟨"q",1⟩,.disconnected ⟨"p",0⟩,.connected ⟨"p",2⟩,
    .disconnected ⟨"q",1⟩]

theorem truePresence_overlapping :
    Reports [] overlapping ∧ ClosesLast [] overlapping ∧
      TruePresence (fun w : Finset String => (w : Set String)) tracker ∅ [] overlapping := by
  have hreports : Reports [] overlapping := by
    simp [overlapping,Reports,Possible,after]
  have hlast : ClosesLast [] overlapping := by
    simp [overlapping,ClosesLast,after]
  exact ⟨hreports,hlast,(truePresence_iff tracks_tracker Finset.coe_empty hreports).mpr hlast⟩

def losesOne : List Notice := [.connected ⟨"p",0⟩,.connected ⟨"p",1⟩,.disconnected ⟨"p",1⟩]

/-- The cache is then empty, though the peer is still connected. -/
theorem losesOne_not_present :
    Reports [] losesOne ∧ losesOne.foldl after [] = [⟨"p",0⟩] ∧
      losesOne.foldl tracker.notify ∅ = ∅ ∧
      ¬ TruePresence (fun w : Finset String => (w : Set String)) tracker ∅ [] losesOne := by
  have hconns : losesOne.foldl after [] = [⟨"p",0⟩] := by decide
  have hcache : losesOne.foldl tracker.notify ∅ = ∅ := by decide
  refine ⟨by simp [losesOne,Reports,Possible,after],hconns,hcache,fun h => ?_⟩
  have hlast : ((losesOne.foldl tracker.notify ∅ : Finset String) : Set String) =
      present (losesOne.foldl after []) := h.2.2.2
  rw [hconns,hcache,Finset.coe_empty] at hlast
  have hin : "p" ∈ present [⟨"p",0⟩] := ⟨_,List.mem_singleton_self _,rfl⟩
  rw [← hlast] at hin
  exact hin

end Presence
end P2PForge
