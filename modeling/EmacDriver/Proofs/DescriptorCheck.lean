import EmacDriver.GethRx
import EmacDriver.Proofs.RxSpec

namespace EmacDriver
open Bytes

def rxError (d : Desc0) : Bool :=
  d.frmType && (d.chsumErr || d.ipchErr) || d.errSum || d.lenErr || d.miiErr

def CompleteFrame (d : Desc0) (f : Frame) : Prop :=
  d.firstDesc = true ∧ d.lastDesc = true ∧ rxError d = false ∧ 0 ≤ f.len ∧ f.len ≤ 2048

/-- `rx_status` keeps the descriptors that end a frame without an error. -/
theorem rxStatus_eq (p : DmaDesc) :
    rxStatus p = if p.desc0.lastDesc && !rxError p.desc0 then .goodFrame else .discardFrame := by
  unfold rxStatus rxError
  cases p.desc0.lastDesc with
  | false => simp
  | true =>
    cases p.desc0.miiErr with
    | true => simp
    | false =>
      cases p.desc0.lenErr with
      | true => simp
      | false =>
        cases p.desc0.errSum with
        | true => simp
        | false =>
          cases p.desc0.frmType with
          | false => simp
          | true => cases p.desc0.chsumErr <;> cases p.desc0.ipchErr <;> simp

/-- A length with the FCS would need a status that `rx_status` never gives. -/
theorem gethTake_frames (g : Geth) :
    (gethTake g).1 =
      if g.rxDesc.desc0.lastDesc && !rxError g.rxDesc.desc0 then
        [⟨g.rxHandleBuf, g.rxDesc.desc0.frmLen.toNat - 4⟩]
      else [] := by
  unfold gethTake
  rw [rxStatus_eq]
  cases g.rxDesc.desc0.lastDesc && !rxError g.rxDesc.desc0 with
  | true => simp [gethRecvLen_eq]
  | false => simp

def frameWaiting (regs : Regs) (g : Geth) : Bool :=
  !g.rxDesc.desc0.own && regs g.reads gethIntSta &&& 0x2300#32 != 0#32

/-- `first_desc` is not looked at, nor the length. -/
theorem gethRecv_frames (regs : Regs) (g : Geth) :
    (gethRecv regs g).1 =
      if frameWaiting regs g && (g.rxDesc.desc0.lastDesc && !rxError g.rxDesc.desc0) then
        [⟨copy g.rxHandleBuf 0 g.rxPacket 0 2048, g.rxDesc.desc0.frmLen.toNat - 4⟩]
      else [] := by
  unfold gethRecv frameWaiting
  cases ho : g.rxDesc.desc0.own with
  | true => simp
  | false =>
    by_cases hs : regs g.reads gethIntSta &&& 0x2300#32 = 0#32
    · simp [readl, hs]
    · simp [readl, hs, gethTake_frames, dmaRxEnable, writel]

/-- Whatever the status, the descriptor is with the DMA after the call, so one
reception is handed on once. -/
theorem gethRecv_own (regs : Regs) (g : Geth) : (gethRecv regs g).2.rxDesc.desc0.own = true := by
  have hfill : ∀ g, (gethFill regs g).rxDesc.desc0.own = true := by
    intro g
    simp only [gethFill, dmaRxEnable, readl, writel]
    decide +kernel
  unfold gethRecv
  split
  · assumption
  · dsimp only
    split
    · exact hfill _
    · exact hfill _

theorem gethRecv_once (regs : Regs) (g : Geth) :
    (gethRecv regs (gethRecv regs g).2).1 = [] := by
  rw [gethRecv_frames, frameWaiting, gethRecv_own]
  rfl

/-- What is missing is a look at `first_desc` and at the length: the first four
bytes of `frm_len` are taken to be there, and any number beyond the buffer. -/
theorem geth_recv_complete_iff (regs : Regs) (g : Geth) :
    (∀ f ∈ (gethRecv regs g).1, CompleteFrame g.rxDesc.desc0 f) ↔
      g.rxDesc.desc0.own = true ∨ regs g.reads gethIntSta &&& 0x2300#32 = 0#32 ∨
        g.rxDesc.desc0.lastDesc = false ∨ rxError g.rxDesc.desc0 = true ∨
        (g.rxDesc.desc0.firstDesc = true ∧ 4 ≤ g.rxDesc.desc0.frmLen.toNat ∧
          g.rxDesc.desc0.frmLen.toNat ≤ 2052) := by
  have hlen : ∀ n : Nat, (0 : Int) ≤ n - 4 ∧ (n : Int) - 4 ≤ 2048 ↔ 4 ≤ n ∧ n ≤ 2052 := by
    omega
  rw [gethRecv_frames, frameWaiting]
  cases ho : g.rxDesc.desc0.own with
  | true => simp
  | false =>
    by_cases hs : regs g.reads gethIntSta &&& 0x2300#32 = 0#32
    · simp [hs]
    · cases hl : g.rxDesc.desc0.lastDesc with
      | false => simp
      | true =>
        cases he : rxError g.rxDesc.desc0 with
        | true => simp
        | false =>
          have hkeep : (!false && regs g.reads gethIntSta &&& 0x2300#32 != 0#32 &&
              (true && !false)) = true := by
            simpa using hs
          rw [if_pos hkeep, List.forall_mem_singleton]
          simp only [CompleteFrame, hl, he, hs, hlen, true_and, false_or, Bool.true_eq_false,
            Bool.false_eq_true]

def receivedDesc (status : BitVec 32) : Geth where
  dmaDescRx := 0x1000
  rxDesc := { desc0 := ⟨status⟩, desc1 := 0x810007ff, desc2 := 0x2000 }
  rxPacketAddr := 0x2000
  rxPacket := fun _ => 0
  rxHandleBuf := fun _ => 0
  reads := 0
  writes := []

def receiveInterrupt : Regs := fun _ _ => 0x100

theorem geth_recv_complete_iff_frame :
    ∀ f ∈ (gethRecv receiveInterrupt (receivedDesc 0x00400300)).1,
      CompleteFrame ⟨0x00400300⟩ f :=
  (geth_recv_complete_iff receiveInterrupt (receivedDesc 0x00400300)).mpr (by decide +kernel)

/-- The rest of a frame that began in another descriptor, a runt of three bytes
and a frame of the greatest length the field holds. -/
theorem geth_recv_incomplete :
    (¬ ∀ regs g, ∀ f ∈ (gethRecv regs g).1, CompleteFrame g.rxDesc.desc0 f) ∧
    (∃ f ∈ (gethRecv receiveInterrupt (receivedDesc 0x00400100)).1,
      f.len = 60 ∧ (⟨0x00400100⟩ : Desc0).firstDesc = false) ∧
    (∃ f ∈ (gethRecv receiveInterrupt (receivedDesc 0x00030300)).1, f.len = -1) ∧
    (∃ f ∈ (gethRecv receiveInterrupt (receivedDesc 0x3fff0300)).1, f.len = 16379) := by
  have hframes : ∀ w : BitVec 32,
      (frameWaiting receiveInterrupt (receivedDesc w) &&
        ((⟨w⟩ : Desc0).lastDesc && !rxError ⟨w⟩)) = true →
      ∃ f ∈ (gethRecv receiveInterrupt (receivedDesc w)).1,
        f.len = ((⟨w⟩ : Desc0).frmLen.toNat : Int) - 4 := by
    intro w hw
    rw [gethRecv_frames]
    refine ⟨⟨copy (fun _ => 0) 0 (fun _ => 0) 0 2048, _⟩, ?_, rfl⟩
    exact (if_pos hw).symm ▸ List.mem_singleton.mpr rfl
  obtain ⟨f, hf, hlen⟩ := hframes 0x00400100 (by decide +kernel)
  refine ⟨?_, ⟨f, hf, hlen, by decide +kernel⟩, hframes 0x00030300 (by decide +kernel),
    hframes 0x3fff0300 (by decide +kernel)⟩
  intro h
  have hc := (h receiveInterrupt (receivedDesc 0x00400100) f hf).1
  revert hc
  decide +kernel

end EmacDriver
