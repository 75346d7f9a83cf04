import P2PForge.ByteStream

/-! Streams that keep their deadlines.
Such a stream has a clock, and a read or a write that has to wait returns by the deadline at the
latest. A full read may take any number of reads and still returns by then. -/
namespace P2PForge

structure Reader.Punctual {σ : Type} (r : Reader σ) where
  now : σ → ℤ
  deadline : σ → Option ℤ
  set : Duration → σ → σ
  set_eq : r.setReadDeadline = some set
  now_set : ∀ d s, now (set d s) = now s
  deadline_set : ∀ d s, deadline (set d s) = some (now s + d.toInt)
  deadline_read : ∀ s k, deadline (r.read s k).next = deadline s
  now_read : ∀ s k t, deadline s = some t → now (r.read s k).next ≤ max (now s) t

structure Writer.Punctual {τ : Type} (w : Writer τ) where
  now : τ → ℤ
  deadline : τ → Option ℤ
  set : Duration → τ → τ
  set_eq : w.setWriteDeadline = some set
  now_set : ∀ d t, now (set d t) = now t
  deadline_set : ∀ d t, deadline (set d t) = some (now t + d.toInt)
  now_write : ∀ t b u, deadline t = some u → now (w.write t b).next ≤ max (now t) u

theorem Reader.Punctual.now_readAtLeast {σ : Type} {r : Reader σ} (c : r.Punctual)
    (got : List UInt8) (missing : ℕ) (s : σ) {t : ℤ} (ht : c.deadline s = some t) :
    c.now (r.readAtLeast got missing s).next ≤ max (c.now s) t := by
  fun_induction Reader.readAtLeast r got missing s with
  | case1 => exact le_max_left _ _
  | case2 got missing s hpos herr ih =>
    have hread := c.now_read s missing t ht
    have hrest := ih ((c.deadline_read s missing).trans ht)
    exact hrest.trans (max_le hread (le_max_right _ _))
  | case3 got missing s hpos e herr hfull => exact c.now_read s missing t ht
  | case4 got missing s hpos e herr hshort => exact c.now_read s missing t ht

end P2PForge
