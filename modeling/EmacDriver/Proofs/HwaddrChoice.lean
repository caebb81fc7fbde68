import EmacDriver.Proofs.EthRing
import EmacDriver.Proofs.MacRoundTrip
import EmacDriver.Proofs.ReceiveBounds

namespace EmacDriver
open Bytes

def skipPieces : List Piece :=
  [.chars [109], .chars [97], .chars [99], .chars [115], .chars [107], .chars [105], .chars [112]]

theorem formatPieces_skip (args : Nat → Arg) : formatPieces (cstr "eth%dmacskip") args =
    some (.chars [101] :: .chars [116] :: .chars [104] ::
      .chars (number (numArg (args 0) none signFlag) 10 (-1) (-1) signFlag) :: skipPieces) := by
  rfl

theorem formatPieces_skip_first (args : Nat → Arg) : formatPieces (cstr "ethmacskip") args =
    some (.chars [101] :: .chars [116] :: .chars [104] :: skipPieces) := by
  rfl

theorem macSkipVar_some {index : Int} {m : CStr} (h : macSkipVar index = some m) :
    ∃ digits, m = cstr "eth" ++ (digits ++ cstr "macskip") ∧ IndexText digits := by
  have hskip : skipPieces.flatMap Piece.text = cstr "macskip" := by decide
  rw [macSkipVar] at h
  generalize (fun _ : Nat => (⟨UInt64.ofInt index, none, fun _ => 0⟩ : Arg)) = args at h
  by_cases hi : index = 0
  · have hwritten := indexText_nil.written (n := 15) (cstr "macskip")
      (formatPieces_skip_first args) (by simp [skipPieces]) (by rw [← hskip]; rfl)
      (by decide) (by decide)
    rw [if_neg (not_not.mpr hi), hwritten, Option.ite_some_none_eq_some] at h
    exact ⟨[], h.2.symm, indexText_nil⟩
  · have hpieces := formatPieces_skip args
    rw [number_signed] at hpieces
    have hd := indexText_decimal (args 0)
    have hwritten := hd.written (n := 15) (cstr "macskip") hpieces (by simp [skipPieces])
      (by rw [← hskip]; rfl) (by decide) (by decide)
    rw [if_pos hi, hwritten, Option.ite_some_none_eq_some] at h
    exact ⟨_, h.2.symm, hd⟩

/-- An address variable is no skip variable, whatever the two indices. -/
theorem apart_macskip {d d' : CStr} (h : IndexText d) (h' : IndexText d') :
    Apart (cstr "eth" ++ (d ++ cstr "addr")) (cstr "eth" ++ (d' ++ cstr "macskip")) := by
  apply apart_of_prefix
  · exact h.not_mem (.inl rfl) (by decide) (by decide)
  · exact h'.not_mem (.inl rfl) (by decide) (by decide)
  · -- the `d` of `addr` is in no skip variable, the `m` of `macskip` in no address variable
    intro hp
    have hd : (100 : UInt8) ∈ cstr "eth" ++ (d ++ cstr "addr") :=
      List.mem_append_right _ (List.mem_append_right _ (by decide))
    exact h'.not_mem (.inr (by decide)) (by decide) (by decide) (hp.subset hd)
  · intro hp
    have hm : (109 : UInt8) ∈ cstr "eth" ++ (d' ++ cstr "macskip") :=
      List.mem_append_right _ (List.mem_append_right _ (by decide))
    exact h.not_mem (.inr (by decide)) (by decide) (by decide) (hp.subset hm)

/-- Storing an address sets no skip variable. -/
theorem ethMacSkip_written {e e' : Env} {index : Int} {d v : CStr}
    (hs : ethMacSkip e index = some false) (hd : IndexText d)
    (h : envSet e (cstr "eth" ++ (d ++ cstr "addr")) (some v) = some e') :
    ethMacSkip e' index = some false := by
  unfold ethMacSkip at *
  cases hm : macSkipVar index with
  | none =>
    rw [hm] at hs
    cases hs
  | some m =>
    obtain ⟨d', rfl, hd'⟩ := macSkipVar_some hm
    rw [hm] at hs
    simp only [Option.bind_eq_bind, Option.bind_some, Option.some.injEq,
      Option.isSome_eq_false_iff, Option.isNone_iff_eq_none] at hs ⊢
    rcases envGet_envSet_other (apart_macskip hd hd') h with ⟨hg, -⟩ | ⟨h19, -, -⟩
    · rw [hg, hs]
    · rw [hs] at h19
      cases h19

/-- The result the caller can rely on: a valid address in the device and in the
hardware, or an error and the device as before. -/
def HwaddrSet (before : Mac) (dev : Nat) (r : HwaddrWrite) : Prop :=
  (r.ret = 0 ∧ isValidEthaddr (r.host.eth.mem dev).enetaddr = true ∧
      r.written = some (r.host.eth.mem dev).enetaddr) ∨
    (r.ret = -22 ∧ (r.host.eth.mem dev).enetaddr = before)

def envHwaddr (s : Host) (ethNumber : Int) : Option Mac :=
  (ethEnvGetEnetaddrByIndex s.env (cstr "eth") ethNumber).map Prod.fst

def chosenHwaddr (envAddr own : Mac) : Mac :=
  if isZeroEthaddr envAddr then if isZeroEthaddr own then defaultMac else own else envAddr

theorem setEnetaddr_same (s : Host) (dev : Nat) (a : Mac) :
    ((s.setEnetaddr dev a).eth.mem dev).enetaddr = a := by
  simp [Host.setEnetaddr]

/-- The choice is always made, and no skip variable comes of it. -/
theorem ethChooseHwaddr_spec (s : Host) (dev : Nat) (ethNumber : Int)
    (hskip : ethMacSkip s.env ethNumber = some false) :
    ∃ envAddr s', envHwaddr s ethNumber = some envAddr ∧
      ethChooseHwaddr s dev (cstr "eth") ethNumber = some s' ∧
      ethMacSkip s'.env ethNumber = some false ∧
      (s'.eth.mem dev).enetaddr = chosenHwaddr envAddr (s.eth.mem dev).enetaddr := by
  obtain ⟨digits, hname, hdigits⟩ := enetvar_eth ethNumber
  obtain ⟨-, hlen⟩ := hdigits.name_fits
  have hget : ethEnvGetEnetaddrByIndex s.env (cstr "eth") ethNumber =
      some (ethEnvGetEnetaddr s.env (cstr "eth" ++ (digits ++ cstr "addr"))) := by
    simp only [ethEnvGetEnetaddrByIndex, hname, Option.bind_eq_bind, Option.bind_some]
  have hvalid : ∀ name,
      (ethEnvGetEnetaddr s.env name).2 = isValidEthaddr (ethEnvGetEnetaddr s.env name).1 :=
    fun _ => rfl
  have hvalid := hvalid (cstr "eth" ++ (digits ++ cstr "addr"))
  refine ⟨(ethEnvGetEnetaddr s.env (cstr "eth" ++ (digits ++ cstr "addr"))).1, ?_⟩
  simp only [envHwaddr, ethChooseHwaddr, chosenHwaddr, hget, Option.map_some, true_and,
    Option.bind_eq_bind, Option.bind_some]
  generalize hr : ethEnvGetEnetaddr s.env (cstr "eth" ++ (digits ++ cstr "addr")) = r at *
  cases hzero : isZeroEthaddr r.1 with
  | false => exact ⟨_, rfl, hskip, setEnetaddr_same s dev r.1⟩
  | true =>
    cases hv : isValidEthaddr (s.eth.mem dev).enetaddr with
    | true =>
      have hown : isZeroEthaddr (s.eth.mem dev).enetaddr = false := by
        simp only [isValidEthaddr, Bool.and_eq_true, Bool.not_eq_true'] at hv
        exact hv.2
      have hunset : r.2 = false := by simp [hvalid, isValidEthaddr, hzero]
      have hmac : (macText (ofList (s.eth.mem dev).enetaddr.toList)).length < 20 := by
        rw [length_macText]
        decide
      obtain ⟨e, he⟩ := envSet_total s.env (cstr "eth" ++ (digits ++ cstr "addr")) hlen hmac
      have hset : ethEnvSetEnetaddrByIndex s.env (cstr "eth") ethNumber
          (s.eth.mem dev).enetaddr = some (e, 0) := by
        simp only [ethEnvSetEnetaddrByIndex, hname, Option.bind_eq_bind, Option.bind_some,
          ethEnvSetEnetaddr, hr, hunset, sprintfLocal_mac, he]
        rfl
      refine ⟨{ s with env := e }, ?_, ethMacSkip_written hskip hdigits he, ?_⟩
      · simp [hset]
      · simp [hown]
    | false =>
      cases hown : isZeroEthaddr (s.eth.mem dev).enetaddr with
      | true => exact ⟨_, rfl, hskip, setEnetaddr_same s dev defaultMac⟩
      | false => exact ⟨s, rfl, hskip, rfl⟩

theorem not_multicast_of_zero {a : Mac} (h : isZeroEthaddr a = true) :
    isMulticastEthaddr a = false := by
  simp only [isZeroEthaddr, beq_iff_eq, UInt8.or_eq_zero_iff] at h
  simp [isMulticastEthaddr, h]

/-- An address that is refused was the device's own, unless the environment
gave a multicast one. -/
theorem chosenHwaddr_settled (envAddr own : Mac) :
    (isValidEthaddr (chosenHwaddr envAddr own) = false →
        chosenHwaddr envAddr own = own) ↔
      (isMulticastEthaddr envAddr = true → envAddr = own) := by
  unfold chosenHwaddr
  cases hzero : isZeroEthaddr envAddr with
  | true =>
    have hsingle := not_multicast_of_zero hzero
    have hdefault : isValidEthaddr defaultMac = true := by decide
    cases hown : isZeroEthaddr own with
    | true => simp [hsingle, hdefault]
    | false => simp [hsingle]
  | false => simp [isValidEthaddr, hzero]

/-- The address of the environment is in the device before it is looked at: a
multicast one stays there when it is refused. -/
theorem eth_write_hwaddr_iff (write : EthDevice → Int) (s : Host) (dev : Nat) (ethNumber : Int)
    (hwrite : ∀ d, write d = 0) (hskip : ethMacSkip s.env ethNumber = some false) :
    ∃ r, ethWriteHwaddr (some write) s dev (cstr "eth") ethNumber = some r ∧
      (HwaddrSet (s.eth.mem dev).enetaddr dev r ↔
        ∀ a, envHwaddr s ethNumber = some a → isMulticastEthaddr a = true →
          a = (s.eth.mem dev).enetaddr) := by
  obtain ⟨envAddr, s', henv, hchoose, hskip', haddr⟩ := ethChooseHwaddr_spec s dev ethNumber hskip
  simp only [henv, Option.some.injEq, forall_eq', ← chosenHwaddr_settled]
  simp only [ethWriteHwaddr, hchoose, hskip', Option.bind_eq_bind, Option.bind_some,
    Bool.false_eq_true, if_false, haddr]
  cases hv : isValidEthaddr (chosenHwaddr envAddr (s.eth.mem dev).enetaddr) with
  | true => exact ⟨_, rfl, by simp [HwaddrSet, haddr, hv, hwrite]⟩
  | false => exact ⟨_, rfl, by simp [HwaddrSet, haddr]⟩

def addressedHost (text : String) : Host :=
  { idleHost with env :=
      { keys := fun i => if i = 0 then cstr "ethaddr" else []
        vals := fun i => if i = 0 then cstr text else [] } }

theorem eth_write_hwaddr_iff_settled :
    ∃ r, ethWriteHwaddr (some fun _ => 0) (addressedHost "02:00:00:00:00:07") 0 (cstr "eth") 0 =
        some r ∧ HwaddrSet (Vector.replicate 6 2) 0 r := by
  have hskip : ethMacSkip (addressedHost "02:00:00:00:00:07").env 0 = some false := by
    decide +kernel
  obtain ⟨r, hr, hiff⟩ := eth_write_hwaddr_iff (fun _ => 0) (addressedHost "02:00:00:00:00:07") 0 0
    (fun _ => rfl) hskip
  refine ⟨r, hr, hiff.mpr ?_⟩
  intro a ha hm
  have hsingle : (envHwaddr (addressedHost "02:00:00:00:00:07") 0).map isMulticastEthaddr =
      some false := by decide +kernel
  rw [ha, Option.map_some, hm] at hsingle
  cases hsingle

/-- The environment gives 01:00:00:00:00:07, a multicast address. -/
theorem eth_write_hwaddr_unsettled :
    ¬ ∀ (write : EthDevice → Int) (s : Host) (dev : Nat) (ethNumber : Int),
      (∀ d, write d = 0) → ethMacSkip s.env ethNumber = some false →
      ∃ r, ethWriteHwaddr (some write) s dev (cstr "eth") ethNumber = some r ∧
        HwaddrSet (s.eth.mem dev).enetaddr dev r := by
  intro h
  obtain ⟨r, hr, hsettled⟩ := h (fun _ => 0) (addressedHost "01:00:00:00:00:07") 0 0
    (fun _ => rfl) (by decide +kernel)
  have hrun : (ethWriteHwaddr (some fun _ => 0) (addressedHost "01:00:00:00:00:07") 0
      (cstr "eth") 0).map (fun r => (r.ret, (r.host.eth.mem 0).enetaddr)) =
      some (-22, #v[1, 0, 0, 0, 0, 7]) := by decide +kernel
  rw [hr, Option.map_some, Option.some.injEq, Prod.mk.injEq] at hrun
  rcases hsettled with ⟨hret, -⟩ | ⟨-, hsame⟩
  · rw [hrun.1] at hret
    cases hret
  · rw [hrun.2] at hsame
    revert hsame
    decide +kernel

end EmacDriver
