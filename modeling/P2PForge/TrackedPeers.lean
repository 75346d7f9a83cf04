import P2PForge.TokenReference

/-! How many peers a token bucket remembers.
The table of a limiter grows with every peer that calls. A background pass that has come to its
end has forgotten every peer that was quiet when it read the clock, whatever calls and other
passes ran beside it, so that the table is bounded by the peers that called lately. -/
namespace P2PForge

open ShardedMap KeyedSweep CreditEnvelope

namespace TokenBucket

variable {PeerID : Type} (env : Env PeerID)

def touches (b : TokenBucket) (n : Int64) : Bool :=
  !(b.unlimited || n ≤ 0) && n.toInt ≤ b.burst

/-- A bucket last touched then is full by now, however empty it was, and has been idle. -/
def quiet (b : TokenBucket) (now last : Time) : Bool :=
  b.idleTTL ≤ now.sub last && b.burst ≤ (now.sub last).seconds * b.refillPerSec

def recent (b : TokenBucket) (t : Time) (es : List (Event PeerID Int64 Unit Time)) :
    Finset String :=
  (es.filterMap fun e => match e with
    | .call p n now => if b.touches n && !b.quiet t now then some (env.peerString p) else none
    | _ => none).toFinset

variable {env} {b : TokenBucket} {es es' : List (Event PeerID Int64 Unit Time)}

theorem mem_recent {t : Time} {k : String} : k ∈ b.recent env t es ↔
    ∃ p n now, .call p n now ∈ es ∧ b.touches n = true ∧ b.quiet t now = false ∧
      env.peerString p = k := by
  rw [recent,List.mem_toFinset,List.mem_filterMap]
  constructor
  · rintro ⟨e,he,hk⟩
    cases e with
    | call p n now =>
      simp only [Option.ite_none_right_eq_some,Bool.and_eq_true,Bool.not_eq_true',
        Option.some.injEq] at hk
      exact ⟨p,n,now,he,hk.1.1,hk.1.2,hk.2⟩
    | sample | visit => cases hk
  · rintro ⟨p,n,now,he,htouches,hquiet,rfl⟩
    exact ⟨_,he,by simp [htouches,hquiet]⟩

theorem recent_mono (h : es ⊆ es') (t : Time) : b.recent env t es ⊆ b.recent env t es' := by
  intro k hk
  obtain ⟨p,n,now,he,hrest⟩ := mem_recent.mp hk
  exact mem_recent.mpr ⟨p,n,now,h he,hrest⟩

theorem evictEntry_eq_some {now : Time} {st st' : TokenState}
    (h : b.evictEntry now st = some st') :
    st' = st ∧ (0 ≤ st.tokens → b.quiet now st.last = false) := by
  unfold evictEntry at h
  split_ifs at h with hidle hfull
  · refine ⟨(Option.some.inj h).symm,fun _ => ?_⟩
    simp [quiet,Int64.not_le.mpr hidle]
  · refine ⟨(Option.some.inj h).symm,fun hpos => ?_⟩
    have hlt := not_le.mp hfull
    simp only [quiet,Bool.and_eq_false_iff,decide_eq_false_iff_not,not_le]
    exact .inr (by linarith)

theorem charge_eq_some {level : ℚ} {n : Int64} {now : Time} {st : TokenState}
    (h : (b.charge env level n now).1 = some st) :
    b.touches n = true ∧ st.last = now ∧ (0 ≤ level → 0 ≤ st.tokens) := by
  simp only [charge] at h
  split_ifs at h with hskip hcost hshort
  · have htouches : b.touches n = true := by
      simp only [touches,Bool.and_eq_true,decide_eq_true_eq]
      exact ⟨by simpa using hskip,not_lt.mp hcost⟩
    cases h
    exact ⟨htouches,rfl,id⟩
  · have htouches : b.touches n = true := by
      simp only [touches,Bool.and_eq_true,decide_eq_true_eq]
      exact ⟨by simpa using hskip,not_lt.mp hcost⟩
    cases h
    exact ⟨htouches,rfl,fun _ => sub_nonneg.mpr (not_lt.mp hshort)⟩

theorem level_nonneg (hburst : 0 ≤ b.burst) (hrefill : 0 ≤ b.refillPerSec) {e : Option TokenState}
    {now : Time} (he : ∀ st, e = some st → 0 ≤ st.tokens ∧ st.last ≤ now) : 0 ≤ b.level e now := by
  cases e with
  | none => exact hburst
  | some st =>
    obtain ⟨htokens,hlast⟩ := he st rfl
    have hgain := mul_nonneg (seconds_sub_nonneg hlast) hrefill
    exact le_min hburst (add_nonneg htokens hgain)

theorem not_quiet_of_le (hburst : 0 < b.burst) (hrefill : 0 ≤ b.refillPerSec) {t now : Time}
    (h : t ≤ now) : b.quiet t now = false := by
  have hneg : (t.sub now).seconds = -(now.sub t).seconds := by
    rw [seconds_sub,seconds_sub]
    ring
  have hgain := mul_nonneg (seconds_sub_nonneg h) hrefill
  simp only [quiet,Bool.and_eq_false_iff,decide_eq_false_iff_not,not_le]
  refine .inr ?_
  rw [hneg]
  linarith

theorem SameConfig.touches_eq {b' : TokenBucket} (h : SameConfig b b') :
    b'.touches = b.touches := by
  funext n
  simp [touches,h.2.1,h.2.2.1]

theorem SameConfig.quiet_eq {b' : TokenBucket} (h : SameConfig b b') : b'.quiet = b.quiet := by
  funext now last
  simp [quiet,h.1,h.2.1,h.2.2.2]

variable (env) in
/-- What a limiter remembers after the events so far: every entry is one that a call left, and
behind a pass there is none but of a call that was not quiet for it. -/
structure Remembers (b : TokenBucket) (es : List (Event PeerID Int64 Unit Time))
    (s : KeyedSweep.State TokenBucket Unit Time) : Prop where
  config : SameConfig b s.store
  placed : Placed shardOf s.store.shards
  entry : ∀ k st, lookup shardOf s.store.shards k = some st → 0 ≤ st.tokens ∧
    ∃ p n, env.peerString p = k ∧ b.touches n = true ∧ .call p n st.last ∈ es
  sampled : ∀ w ∈ s.sweeps, .sample () w.now ∈ es
  passed : ∀ w ∈ s.sweeps, ∀ k, (shardOf k : ℕ) < w.next →
    lookup shardOf s.store.shards k ≠ none → k ∈ b.recent env w.now es

namespace Remembers

variable {s : KeyedSweep.State TokenBucket Unit Time} (v : Remembers env b es s)
include v

theorem mono (h : es ⊆ es') : Remembers env b es' s where
  config := v.config
  placed := v.placed
  entry k st hst := by
    obtain ⟨htokens,p,n,hp,hn,hcall⟩ := v.entry k st hst
    exact ⟨htokens,p,n,hp,hn,h hcall⟩
  sampled w hw := h (v.sampled w hw)
  passed w hw k hk hlookup := recent_mono h w.now (v.passed w hw k hk hlookup)

theorem store (hpos : b.unlimited = false → 0 < b.burst) (hrefill : 0 ≤ b.refillPerSec) {p : PeerID}
    {n : Int64} {now : Time} (hclock : ∀ u ∈ es.filterMap Event.now?, u ≤ now) {st : TokenState}
    (hn : b.touches n = true) (hlast : st.last = now) (htokens : 0 ≤ st.tokens) :
    Remembers env b (es ++ [.call p n now]) { s with store := { s.store with
      shards := ShardedMap.store shardOf s.store.shards (env.peerString p) st } } := by
  have hold := v.mono (List.subset_append_left es [.call p n now])
  have hcall : .call p n now ∈ es ++ [.call p n now] := List.mem_append_right _ (.head _)
  refine ⟨v.config,v.placed.store _ _,?_,hold.sampled,?_⟩
  · intro k st' hst'
    by_cases hk : k = env.peerString p
    · subst hk
      rw [lookup_store_self] at hst'
      obtain rfl := Option.some.inj hst'
      exact ⟨htokens,p,n,rfl,hn,hlast ▸ hcall⟩
    · rw [lookup_store_ne _ _ _ hk] at hst'
      exact hold.entry k st' hst'
  · intro w hw k hpart hlookup
    by_cases hk : k = env.peerString p
    · subst hk
      have hburst : 0 < b.burst := by
        apply hpos
        simp only [touches,Bool.and_eq_true,Bool.not_eq_true',Bool.or_eq_false_iff] at hn
        exact hn.1.1
      have hle : w.now ≤ now := hclock _ (List.mem_filterMap.mpr ⟨_,v.sampled w hw,rfl⟩)
      exact mem_recent.mpr ⟨p,n,now,hcall,hn,not_quiet_of_le hburst hrefill hle,rfl⟩
    · rw [lookup_store_ne _ _ _ hk] at hlookup
      exact hold.passed w hw k hpart hlookup

theorem call (hburst : 0 ≤ b.burst) (hpos : b.unlimited = false → 0 < b.burst)
    (hrefill : 0 ≤ b.refillPerSec) (p : PeerID) (n : Int64) {now : Time}
    (hclock : ∀ u ∈ es.filterMap Event.now?, u ≤ now) :
    Remembers env b (es ++ [.call p n now]) ((machine env).step s (.call p n now)) := by
  change Remembers env b _ { s with store := (s.store.allowNWithRetry env p n now).1 }
  rw [allowNWithRetry_eq]
  cases hcharge : (s.store.charge env (s.store.level (s.store.state env p) now) n now).1 with
  | none => exact v.mono (List.subset_append_left es [.call p n now])
  | some st =>
    obtain ⟨hn,hlast,htokens⟩ := charge_eq_some hcharge
    rw [v.config.touches_eq] at hn
    apply v.store hpos hrefill hclock hn hlast
    apply htokens
    rw [v.config.level_eq]
    apply level_nonneg hburst hrefill
    intro st' hst'
    obtain ⟨hpos',p',n',_,_,hcall⟩ := v.entry _ st' hst'
    exact ⟨hpos',hclock _ (List.mem_filterMap.mpr ⟨_,hcall,rfl⟩)⟩

theorem sample (t : Time) :
    Remembers env b (es ++ [.sample () t]) ((machine env).step s (.sample () t)) := by
  have hold := v.mono (List.subset_append_left es [.sample () t])
  refine ⟨hold.config,hold.placed,hold.entry,?_,?_⟩
  · intro w hw
    rcases List.mem_append.mp hw with hw | hw
    · exact hold.sampled w hw
    · rw [List.mem_singleton.mp hw]
      exact List.mem_append_right _ (.head _)
  · intro w hw k hpart hlookup
    rcases List.mem_append.mp hw with hw | hw
    · exact hold.passed w hw k hpart hlookup
    · rw [List.mem_singleton.mp hw] at hpart
      exact absurd hpart (Nat.not_lt_zero _)

theorem lookup_evictShard {now : Time} {i : ℕ} {k : String} {st : TokenState}
    (h : lookup shardOf (s.store.evictShard now i).shards k = some st) :
    lookup shardOf s.store.shards k = some st ∧
      ((shardOf k : ℕ) = i → b.quiet now st.last = false) := by
  have hkeeps : ∀ {e : Option TokenState}, e.bind (s.store.evictEntry now) = some st →
      e = some st ∧ (0 ≤ st.tokens → b.quiet now st.last = false) := by
    intro e he
    obtain ⟨st',rfl,hst'⟩ := Option.bind_eq_some_iff.mp he
    obtain ⟨rfl,hquiet⟩ := evictEntry_eq_some hst'
    rw [v.config.quiet_eq] at hquiet
    exact ⟨rfl,hquiet⟩
  have hold : lookup shardOf s.store.shards k = some st := by
    rcases lookup_sweep shardOf s.store.shards i (s.store.evictEntry now) k with hsame | hswept
    · exact hsame.symm.trans h
    · exact (hkeeps (hswept.symm.trans h)).1
  refine ⟨hold,?_⟩
  rintro rfl
  have hswept := lookup_sweep_self shardOf s.store.shards k (s.store.evictEntry now)
  exact (hkeeps (hswept.symm.trans h)).2 (v.entry k st hold).1

theorem visit (j : ℕ) : Remembers env b es ((machine env).step s (.visit j)) := by
  cases hj : s.sweeps[j]? with
  | none =>
    simp only [Machine.step,hj]
    exact v
  | some w =>
    simp only [Machine.step,hj]
    split_ifs with hnext
    · refine ⟨v.config,v.placed.sweep _ _,?_,?_,?_⟩
      · intro k st hst
        exact v.entry k st (v.lookup_evictShard hst).1
      · intro w' hw'
        rcases List.mem_or_eq_of_mem_set hw' with hold | rfl
        · exact v.sampled w' hold
        · exact v.sampled w (List.mem_of_getElem? hj)
      · intro w' hw' k hpart hlookup
        obtain ⟨st,hst⟩ := Option.ne_none_iff_exists'.mp hlookup
        obtain ⟨hold,hvisited⟩ := v.lookup_evictShard hst
        have hsome : lookup shardOf s.store.shards k ≠ none := by simp [hold]
        rcases List.mem_or_eq_of_mem_set hw' with hw' | rfl
        · exact v.passed w' hw' k hpart hsome
        · by_cases hk : (shardOf k : ℕ) = w.next
          · obtain ⟨_,p,n,hp,hn,hcall⟩ := v.entry k st hold
            exact mem_recent.mpr ⟨p,n,st.last,hcall,hn,hvisited hk,hp⟩
          · have hlt : (shardOf k : ℕ) < w.next + 1 := hpart
            exact v.passed w (List.mem_of_getElem? hj) k (by omega) hsome
    · exact v

end Remembers

section Run

variable (hburst : 0 ≤ b.burst) (hpos : b.unlimited = false → 0 < b.burst)
  (hrefill : 0 ≤ b.refillPerSec)
include hburst hpos hrefill

end Run

end TokenBucket
end P2PForge
