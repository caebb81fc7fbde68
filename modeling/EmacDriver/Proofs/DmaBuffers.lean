import EmacDriver.GethBuffers
import EmacDriver.GethDma
import EmacDriver.Proofs.AllocSpec

namespace EmacDriver

theorem alignUp_near (addr : Nat) : alignUp 64 addr ≤ addr + 63 := by
  rw [alignUp]
  split <;> omega

structure OnLine (a : Arena) (size : Nat) (r : UInt64 × Arena) : Prop where
  buf : r.2.buf = a.buf
  above : a.buf.toNat + a.sz.toNat ≤ r.1.toNat
  top : r.1.toNat + size = a.buf.toNat + r.2.sz.toNat
  room : r.2.sz.toNat ≤ a.sz.toNat + 63 + size
  line : r.1.toNat % 64 = 0

theorem noncachedAlloc_onLine (a : Arena) (size : UInt64) (hs : a.InSpace)
    (hroom : a.sz.toNat + 63 + size.toNat ≤ 16384) :
    OnLine a size.toNat (noncachedAlloc a size) := by
  have hnear := alignUp_near (a.buf.toNat + a.sz.toNat)
  have hspace : a.buf.toNat + 16384 < 18446744073709551616 := hs
  have haligned : (AllocCall.memalign 64 size).Alignable := show 0 < (64 : UInt64).toNat by decide
  have hfits : (AllocCall.memalign 64 size).Fits a := by
    show alignUp 64 (a.buf.toNat + a.sz.toNat) + size.toNat ≤ a.buf.toNat + 16384
    omega
  have hplaced := memalign_placed hs haligned hfits
  have hsum : (a.buf + a.sz.toUInt64).toNat = a.buf.toNat + a.sz.toNat := by
    rw [UInt64.toNat_add, UInt32.toNat_toUInt64]
    omega
  have hlow : alignUp (64 : UInt64).toNat (a.buf + a.sz.toUInt64).toNat < 18446744073709551616 := by
    rw [hsum]
    exact Nat.lt_of_le_of_lt hnear (by omega)
  have hup := memalignRoundup_toNat (a.buf + a.sz.toUInt64) haligned hlow
  have hle := (alignUp_spec (a.buf.toNat + a.sz.toNat) (show 0 < 64 by decide)).1
  rw [hsum] at hup
  have hsz : (noncachedAlloc a size).2.sz.toNat ≤ a.sz.toNat + 63 + size.toNat := by
    show (memalignRoundup 64 (a.buf + a.sz.toUInt64) - a.buf + size).toUInt32.toNat ≤ _
    have hup' : (memalignRoundup 64 (a.buf + a.sz.toUInt64)).toNat =
        alignUp 64 (a.buf.toNat + a.sz.toNat) := hup
    rw [UInt64.toNat_toUInt32, UInt64.toNat_add, UInt64.toNat_sub, hup']
    omega
  exact ⟨hplaced.buf, hplaced.above, hplaced.top, hsz, Nat.mod_eq_zero_of_dvd hplaced.aligned⟩

/-- Wherever the linker puts the array of `memalign`, within the MAC's reach, and whatever is
taken of it before: the two descriptors and the buffer have cache lines of their own, and the
copy is behind them. -/
theorem geth_buffers_layout {a : Arena} (hnull : 0 < a.buf.toNat)
    (hlow : a.buf.toNat + 16384 < 4294967296) (hroom : a.sz.toNat + 4396 ≤ 16384) :
    ∃ (g : Dma.Layout) (rxHandleBuf : UInt64),
      gethBuffers a = some ⟨g.dmaDescTx, g.dmaDescRx, g.rxPacket, rxHandleBuf⟩ ∧
      g.rxPacket.toNat + 2048 ≤ rxHandleBuf.toNat ∧
      rxHandleBuf.toNat + 2048 ≤ a.buf.toNat + 16384 := by
  have hspace (b : Arena) (hb : b.buf = a.buf) : b.InSpace := by
    rw [Arena.InSpace, hb]
    omega
  have hdesc : (24 : UInt64).toNat = 24 := rfl
  have hpage : (2048 : UInt64).toNat = 2048 := rfl
  have htx := noncachedAlloc_onLine a 24 (hspace a rfl) (by omega)
  cases htx' : noncachedAlloc a 24 with
  | mk tx a₁ =>
  rw [htx', hdesc] at htx
  have hb₁ : a₁.buf = a.buf := htx.buf
  have hs₁ : a₁.sz.toNat ≤ a.sz.toNat + 63 + 24 := htx.room
  have hrx := noncachedAlloc_onLine a₁ 24 (hspace a₁ hb₁) (by omega)
  cases hrx' : noncachedAlloc a₁ 24 with
  | mk rx a₂ =>
  rw [hrx', hdesc] at hrx
  have hb₂ : a₂.buf = a.buf := hrx.buf.trans hb₁
  have hs₂ : a₂.sz.toNat ≤ a₁.sz.toNat + 63 + 24 := hrx.room
  have hpacket := noncachedAlloc_onLine a₂ 2048 (hspace a₂ hb₂) (by omega)
  cases hpacket' : noncachedAlloc a₂ 2048 with
  | mk packet a₃ =>
  rw [hpacket', hpage] at hpacket
  have hb₃ : a₃.buf = a.buf := hpacket.buf.trans hb₂
  have hs₃ : a₃.sz.toNat ≤ a₂.sz.toNat + 63 + 2048 := hpacket.room
  have hhandle := noncachedAlloc_onLine a₃ 2048 (hspace a₃ hb₃) (by omega)
  cases hhandle' : noncachedAlloc a₃ 2048 with
  | mk handle a₄ =>
  rw [hhandle', hpage] at hhandle
  have hs₄ : a₄.sz.toNat ≤ a₃.sz.toNat + 63 + 2048 := hhandle.room
  obtain ⟨-, habove, htop, -, hline⟩ := htx
  obtain ⟨-, habove₁, htop₁, -, hline₁⟩ := hrx
  obtain ⟨-, habove₂, htop₂, -, hline₂⟩ := hpacket
  obtain ⟨-, habove₃, htop₃, -, -⟩ := hhandle
  dsimp only at habove htop hline habove₁ htop₁ hline₁ habove₂ htop₂ hline₂ habove₃ htop₃
  rw [hb₁] at habove₁ htop₁
  rw [hb₂] at habove₂ htop₂
  rw [hb₃] at habove₃ htop₃
  have hne : rx ≠ tx := by
    rintro rfl
    omega
  have hzero : ¬(tx = 0 ∨ rx = 0 ∨ packet = 0 ∨ handle = 0) := by
    have hval (p : UInt64) (hp : 0 < p.toNat) : p ≠ 0 := by
      rintro rfl
      exact absurd hp (by decide)
    rintro (h | h | h | h)
    · exact hval tx (by omega) h
    · exact hval rx (by omega) h
    · exact hval packet (by omega) h
    · exact hval handle (by omega) h
  refine ⟨⟨rx, tx, packet, hline₁, hline, hline₂, ?_, ?_, ?_, hne, ?_, ?_⟩, handle, ?_, ?_, ?_⟩
  · omega
  · omega
  · omega
  · exact Or.inl (by omega)
  · exact Or.inl (by omega)
  · simp only [gethBuffers, htx', hrx', hpacket', hhandle', if_neg hzero]
  · show packet.toNat + 2048 ≤ handle.toNat
    omega
  · omega

/-- The array at the start of the second MiB of the memory, 100 bytes of it taken. -/
theorem geth_buffers_layout_some :
    ∃ (g : Dma.Layout) (rxHandleBuf : UInt64),
      gethBuffers ⟨0x40100004, 100⟩ =
        some ⟨g.dmaDescTx, g.dmaDescRx, g.rxPacket, rxHandleBuf⟩ ∧
      g.rxPacket.toNat + 2048 ≤ rxHandleBuf.toNat ∧
      rxHandleBuf.toNat + 2048 ≤ (0x40100004 : UInt64).toNat + 16384 :=
  geth_buffers_layout (a := ⟨0x40100004, 100⟩) (by decide) (by decide) (by decide)

end EmacDriver
