import LgNpu.Mac.Job
import LgNpu.Mac.Stage

/-!
# The invariant of the multiply-accumulate path

Iterations go through the loader and the processing element one at a time and
elements through the post-processing stages in order; `l`, `p` and `r` count
the iterations handed to the loader, taken by the processing element and
emitted by it.  The invariant holds under every schedule of grants as long as
every cycle is `Smooth`: a stalled result is not released in the cycle that
clears the accumulator, and the activation operands read are the bytes `rd`.
Where the second is not known, the addresses are still right; `D` says whether
the data is followed as well.
-/

namespace LgNpu

/-! ## One cycle -/

namespace Mac

variable {F Cmd : Type} (fe : MacFront F Cmd) (g : Grants) (x : Sys (Mac F))

/-- The response the datapath sees in this cycle. -/
def rspOf : BeRsp := x.mem.beRsp (x.granted (macBackend fe) g)

/-- A stalled last result is not released while the accumulator is cleared,
and, where data is followed, an operand read that is not repeated reads the
byte `d`. -/
structure Smooth (D : Prop) (d : Byte) : Prop where
  noClash : ¬(x.be.path.clr = true ∧ x.be.path.accEn = true)
  reads : D → x.be.path.loader.actMemReq = true → g.act = true →
    x.mem.actBuf.beRdAcceptR = false → x.mem.act (x.be.path.loader.actAddrR.setWidth 13) = d

variable {fe g x} {cmd : Cmd} {v : Bool}

theorem path_step : (x.step (macBackend fe) cmd v g).be.path =
    x.be.path.step (fe.out x.be.front) (rspOf fe g x) := rfl

theorem mem_step : (x.step (macBackend fe) cmd v g).mem =
    x.mem.step .idle (x.granted (macBackend fe) g) := rfl

theorem rsp_act : (rspOf fe g x).actRdGnt = (x.be.path.loader.actMemReq && g.act) := rfl

theorem rsp_wt (hn : x.mem.biasPendingR = false) :
    (rspOf fe g x).wtRdGnt = (x.be.path.loader.wtMemReq && g.wt) := NpuMemTop.wtRdGnt_eq hn

/-- The bias is read while the loader is not reading. -/
theorem one_reader : ((x.granted (macBackend fe) g).biasRdReq &&
    (x.granted (macBackend fe) g).wtRdReq) = false := by
  change ((x.be.path.lastInnerLoadR && x.be.path.peAccept) &&
    (x.be.path.loader.wtMemReq && g.wt)) = false
  cases hs : x.be.path.loader.state <;>
    simp [MacPath.peAccept, ConvLoader.pairValid, ConvLoader.wtMemReq, hs]

theorem log_step : (x.step (macBackend fe) cmd v g).log = x.log ++
    if x.be.path.writer.memReq && g.out then
      [(x.be.path.writer.addrR, x.be.path.writer.dataR)] else [] := rfl

end Mac

/-! ## The loader -/

/-- An operand has been latched or is about to arrive. -/
structure Operand (rvalid : Bool) (rdata : Byte) (got : Bool) (r v : Byte) : Prop where
  latched : got = true → r = v
  arrived : rvalid = true → got = false → rdata = v

section Invariant

variable (D : Prop) (c : MacJob) (rd : ℕ → Byte) (w : BitVec 12 → Byte)

/-- The metadata of the iteration in the loader. -/
structure LoadMeta (p : ℕ) (s : MacPath) : Prop where
  last : s.lastInnerLoadR = c.lastAt p
  clr : s.accClrLoadR = c.clrAt p
  wrAddr : c.lastAt p = true → s.wrAddrLoadR = c.wrAddr (p / c.its)
  biasAddr : c.lastAt p = true → s.biasAddrLoadR = c.biasAddr (p / c.its)

inductive LoaderHolds (l p : ℕ) (s : MacPath) (y : NpuMemTop) : Prop
  | idle (hs : s.loader.state = .idle) (hp : p = l) (hact : y.actBuf.beRdAcceptR = false)
      (hwt : y.wtRvalid = false)
  | req (hs : s.loader.state = .req) (hp : p + 1 = l) (hm : LoadMeta c p s)
      (hz : s.loader.isZeroPadR = c.zeroPad p)
      (hzl : c.zeroPad p = true → s.loader.actLatched = true ∧ s.loader.wtLatched = true)
      (hact : s.loader.actAddrR = c.actAddr p) (hwt : s.loader.wtAddrR = c.wtAddr p)
      (hopa : D → Operand y.actBuf.beRdAcceptR y.actBuf.sram.bRdata s.loader.actLatched
        s.loader.actR (c.actVal rd p))
      (hopw : Operand y.wtRvalid y.wtBuf.sram.bRdata s.loader.wtLatched s.loader.wtR
        (c.wtVal w p))
  | wait (hs : s.loader.state = .wait) (hp : p + 1 = l) (hm : LoadMeta c p s)
      (hopa : D → Operand y.actBuf.beRdAcceptR y.actBuf.sram.bRdata s.loader.actLatched
        s.loader.actR (c.actVal rd p))
      (hopw : Operand y.wtRvalid y.wtBuf.sram.bRdata s.loader.wtLatched s.loader.wtR
        (c.wtVal w p))
      (hgota : s.loader.actLatched = true ∨ y.actBuf.beRdAcceptR = true)
      (hgotw : s.loader.wtLatched = true ∨ y.wtRvalid = true)
  | done (hs : s.loader.state = .done) (hp : p + 1 = l) (hm : LoadMeta c p s)
      (hact : D → s.loader.actR = c.actVal rd p) (hwt : s.loader.wtR = c.wtVal w p)

/-! ## Processing element and accumulator -/

inductive PeHolds (p r : ℕ) (s : MacPath) (y : NpuMemTop) : Prop
  | empty (hv : s.pe.validR = false) (hr : r = p)
      (hacc : D → 0 < p → s.accum.accR = c.partialSum rd w p)
      (hb : y.biasRvalid = false)
  | full (hv : s.pe.validR = true) (hr : r + 1 = p)
      (hres : D → s.pe.resultR = c.partialSum rd w p)
      (hlast : s.lastInnerD = c.lastAt r)
      (hwr : c.lastAt r = true → s.wrAddrD = c.wrAddr (r / c.its))
      (hidle : c.lastAt r = false → s.loader.state = .idle)
      (hb : y.biasRvalid = true → c.lastAt r = true ∧ y.wtBuf.sram.bRdata = c.biasVal w (r / c.its))
      (hgot : c.lastAt r = true → y.biasRvalid = true ∨ s.biasVal = c.biasVal w (r / c.its))

/-! ## Post-processing -/

end Invariant

namespace MacPath

variable (s : MacPath) (n : ℕ)

/-- The element at the head of each stage, when `n` have been written. -/
def atQuant : ℕ := n + s.writer.pending

def atRelu : ℕ := s.atQuant n + s.postproc.quant.valid.toNat

def atBias : ℕ := s.atRelu n + s.postproc.relu.valid.toNat

def atTrigger : ℕ := s.atBias n + s.postproc.bias.valid.toNat

end MacPath

section Invariant

variable (D : Prop) (c : MacJob) (rd : ℕ → Byte) (w : BitVec 12 → Byte)

structure PostHolds (r n : ℕ) (s : MacPath) : Prop where
  writer : s.writer.HoldsAddr c.wrAddr n
  data : D → s.writer.HoldsData (c.outVal rd w) n
  quant : D → s.postproc.quant.Holds (c.outVal rd w) (s.atQuant n)
  relu : D → s.postproc.relu.Holds (c.activated rd w) (s.atRelu n)
  bias : D → s.postproc.bias.Holds (c.biased rd w) (s.atBias n)
  addrs : s.wrAddrQ.Holds c.wrAddr (s.atQuant n)
  /-- Every element in the stages has its address in the queue. -/
  count : s.wrAddrQ.count = s.postproc.quant.valid.toNat + s.postproc.relu.valid.toNat +
    s.postproc.bias.valid.toNat + s.ppTriggerR.toNat
  trigger : s.ppTriggerR = true → s.pe.validR = false ∧ s.postproc.bias.valid = false ∧
    s.biasVal = c.biasVal w (s.atTrigger n) ∧ r = (s.atTrigger n + 1) * c.its
  fired : s.atTrigger n + s.ppTriggerR.toNat = r / c.its

end Invariant

/-- A system with the place of its feed and the numbers of iterations taken and
emitted by the processing element. -/
structure Track (F : Type) where
  feed : Feed
  taken : ℕ
  emitted : ℕ
  sys : Sys (Mac F)

namespace Track

variable {F : Type} (k : Track F)

def path : MacPath := k.sys.be.path

def mem : NpuMemTop := k.sys.mem

end Track

/-- The datapath under a feed. -/
structure MacInv {F : Type} (D : Prop) (c : MacJob) (At : Feed → F → Prop) (rd : ℕ → Byte)
    (w : BitVec 12 → Byte) (k : Track F) : Prop where
  front : At k.feed k.sys.be.front
  within : k.feed.Within c.total
  wt : k.mem.wt = w
  calm : k.mem.biasPendingR = false
  addrs : k.sys.log.map Prod.fst = (List.range k.sys.log.length).map c.wrAddr
  log : D → k.sys.log = c.writesUpTo rd w k.sys.log.length
  loader : LoaderHolds D c rd w (k.feed.handed c.total) k.taken k.path k.mem
  pe : PeHolds D c rd w k.taken k.emitted k.path k.mem
  post : PostHolds D c rd w k.emitted k.sys.log.length k.path

/-! ## Steps of the loader -/

section Step

variable {F Cmd : Type} {fe : MacFront F Cmd} {g : Grants} {x : Sys (Mac F)} {cmd : Cmd} {v : Bool}
  {D : Prop} {c : MacJob} {rd : ℕ → Byte} {w : BitVec 12 → Byte} {l p r n : ℕ}

theorem LoadMeta.congr {s s' : MacPath} (h : LoadMeta c p s)
    (h1 : s'.lastInnerLoadR = s.lastInnerLoadR) (h2 : s'.accClrLoadR = s.accClrLoadR)
    (h3 : s'.wrAddrLoadR = s.wrAddrLoadR) (h4 : s'.biasAddrLoadR = s.biasAddrLoadR) :
    LoadMeta c p s' :=
  ⟨h1.trans h.last, h2.trans h.clr, fun hl ↦ h3.trans (h.wrAddr hl),
    fun hl ↦ h4.trans (h.biasAddr hl)⟩

open Mac

theorem LoadMeta.step (fe : MacFront F Cmd) (cmd : Cmd) (v : Bool) (g : Grants)
    (h : LoadMeta c p x.be.path) (hs : x.be.path.loader.state ≠ .idle) :
    LoadMeta c p (x.step (macBackend fe) cmd v g).be.path := by
  refine h.congr ?_ ?_ ?_ ?_ <;>
    simp [path_step, MacPath.step, MacPath.loadAccept, ConvLoader.loadReady, hs]

/-- An operand that has arrived is latched, and one requested now arrives
next. -/
theorem Operand.next {rvalid rvalid' latched latched' : Bool} {rdata rdata' r r' val : Byte}
    (h : Operand rvalid rdata latched r val) (hr : r' = if rvalid && !latched then rdata else r)
    (hl : latched' = if rvalid && !latched then true else latched)
    (hd : rvalid' = true → latched' = false → rdata' = val) :
    Operand rvalid' rdata' latched' r' val := by
  refine ⟨fun hl' ↦ ?_, hd⟩
  cases hv : rvalid <;> cases ho : latched <;> simp_all [h.latched, h.arrived]

theorem loader_step (fe : MacFront F Cmd) (cmd : Cmd) (v : Bool) (g : Grants)
    (hs : x.be.path.loader.state = .req ∨ x.be.path.loader.state = .wait) :
    (x.step (macBackend fe) cmd v g).be.path.loader =
      { x.be.path.loader with
        state := x.be.path.loader.stateNext (fe.out x.be.front).addrGenValid
          (rspOf fe g x).actRdGnt (rspOf fe g x).wtRdGnt x.be.path.loadPairReady
        actR :=
          if x.mem.actBuf.beRdAcceptR && !x.be.path.loader.actLatched then
            x.mem.actBuf.sram.bRdata else x.be.path.loader.actR
        wtR :=
          if x.mem.wtRvalid && !x.be.path.loader.wtLatched then x.mem.wtBuf.sram.bRdata
          else x.be.path.loader.wtR
        actLatched :=
          if x.mem.actBuf.beRdAcceptR && !x.be.path.loader.actLatched then true
          else x.be.path.loader.actLatched
        wtLatched :=
          if x.mem.wtRvalid && !x.be.path.loader.wtLatched then true
          else x.be.path.loader.wtLatched } := by
  have htake : ∀ b, x.be.path.loader.taking b = false := by
    rcases hs with hs | hs <;> simp [ConvLoader.taking, hs]
  have hrecv : x.be.path.loader.receiving = true := by
    rcases hs with hs | hs <;> simp [ConvLoader.receiving, hs]
  rw [path_step]
  simp only [MacPath.step, ConvLoader.step, htake, hrecv, Bool.false_and, Bool.true_and,
    Bool.false_eq_true, if_false]
  rfl

theorem operands_step (hs : x.be.path.loader.state = .req ∨ x.be.path.loader.state = .wait)
    (hwt : x.mem.wt = w) (hn : x.mem.biasPendingR = false) (hsm : Smooth g x D (rd p))
    (hact : x.be.path.loader.actMemReq = true → c.actVal rd p = rd p)
    (hwaddr : x.be.path.loader.wtMemReq = true →
      w (x.be.path.loader.wtAddrR.setWidth 12) = c.wtVal w p)
    (hopa : D → Operand x.mem.actBuf.beRdAcceptR x.mem.actBuf.sram.bRdata
      x.be.path.loader.actLatched x.be.path.loader.actR (c.actVal rd p))
    (hopw : Operand x.mem.wtRvalid x.mem.wtBuf.sram.bRdata x.be.path.loader.wtLatched
      x.be.path.loader.wtR (c.wtVal w p)) {x' : Sys (Mac F)}
    (hx' : x' = x.step (macBackend fe) cmd v g) :
    (D → Operand x'.mem.actBuf.beRdAcceptR x'.mem.actBuf.sram.bRdata
        x'.be.path.loader.actLatched x'.be.path.loader.actR (c.actVal rd p)) ∧
      Operand x'.mem.wtRvalid x'.mem.wtBuf.sram.bRdata x'.be.path.loader.wtLatched
        x'.be.path.loader.wtR (c.wtVal w p) := by
  subst hx'
  have hload := loader_step fe cmd v g hs
  refine ⟨fun hD ↦ (hopa hD).next (by rw [hload]) (by rw [hload]) fun hreq hl ↦ ?_,
    hopw.next (by rw [hload]) (by rw [hload]) fun hreq _ ↦ ?_⟩
  · obtain ⟨hreq', hg⟩ := Bool.and_eq_true_iff.mp
      (show (x.be.path.loader.actMemReq && g.act) = true from hreq)
    have hfirst : x.mem.actBuf.beRdAcceptR = false := by
      rw [hload] at hl
      cases ha : x.mem.actBuf.beRdAcceptR <;> cases hb : x.be.path.loader.actLatched <;>
        simp_all
    refine (if_pos hreq).trans ?_
    change x.mem.act (x.be.path.loader.actAddrR.setWidth 13) = _
    rw [hsm.reads hD hreq' hg hfirst, hact hreq']
  · rw [mem_step, NpuMemTop.wtRvalid_step hn one_reader] at hreq
    obtain ⟨hreq', -⟩ := Bool.and_eq_true_iff.mp
      (show (x.be.path.loader.wtMemReq && g.wt) = true from hreq)
    rw [mem_step, NpuMemTop.wtRdata_step hn one_reader hreq, hwt]
    exact hwaddr hreq'

/-- An idle loader takes the iteration on offer. -/
theorem LoaderHolds.take (cmd : Cmd) (v : Bool) (g : Grants) (hs : x.be.path.loader.state = .idle)
    (hv : (fe.out x.be.front).addrGenValid = true) (ho : c.Offers l (fe.out x.be.front))
    (hn : x.mem.biasPendingR = false) :
    LoaderHolds D c rd w (l + 1) l (x.step (macBackend fe) cmd v g).be.path
      (x.step (macBackend fe) cmd v g).mem := by
  set x' := x.step (macBackend fe) cmd v g with hx'
  have hpath : x'.be.path = x.be.path.step (fe.out x.be.front) (rspOf fe g x) := rfl
  have hload : x'.be.path.loader = x.be.path.loader.step _ _ _ _ _ _ _ _ _ _ _ := rfl
  have htake : x.be.path.loadAccept (fe.out x.be.front) = true := by
    simp [MacPath.loadAccept, ConvLoader.loadReady, hs, hv]
  -- Nothing was asked for in this cycle, so nothing arrives in the next.
  have hacc : x'.mem.actBuf.beRdAcceptR = false := by
    change (x.be.path.loader.actMemReq && g.act) = false
    simp [ConvLoader.actMemReq, hs]
  have hwacc : x'.mem.wtRvalid = false := by
    rw [hx', mem_step, NpuMemTop.wtRvalid_step hn one_reader]
    change (x.be.path.loader.wtMemReq && g.wt) = false
    simp [ConvLoader.wtMemReq, hs]
  refine .req ?_ rfl ⟨?_, ?_, ?_, ?_⟩ ?_ ?_ ?_ ?_ (fun _ ↦ ⟨?_, ?_⟩) ⟨?_, ?_⟩
  · simp [hload, ConvLoader.step, ConvLoader.stateNext, hs, hv]
  · simp [hpath, MacPath.step, htake, ho.last]
  · simp [hpath, MacPath.step, htake, ho.clr]
  · simpa [hpath, MacPath.step, htake] using ho.wrAddr
  · simpa [hpath, MacPath.step, htake] using ho.biasAddr
  · simp [hload, ConvLoader.step, ConvLoader.taking, hs, hv, ho.zeroPad]
  · intro hz
    simp [hload, ConvLoader.step, ConvLoader.taking, hs, hv, ho.zeroPad, hz]
  · simp [hload, ConvLoader.step, ConvLoader.taking, hs, hv, ho.actAddr]
  · simp [hload, ConvLoader.step, ConvLoader.taking, hs, hv, ho.wtAddr]
  · simp only [hload, ConvLoader.step, ConvLoader.taking, hs, hv, ho.zeroPad, decide_true,
      Bool.true_and, if_true]
    intro hz
    simp [MacJob.actVal, hz]
  · exact fun hc ↦ absurd (hacc.symm.trans hc) Bool.false_ne_true
  · simp only [hload, ConvLoader.step, ConvLoader.taking, hs, hv, ho.zeroPad, decide_true,
      Bool.true_and, if_true]
    intro hz
    simp [MacJob.wtVal, hz]
  · exact fun hc ↦ absurd (hwacc.symm.trans hc) Bool.false_ne_true

theorem LoaderHolds.step (fe : MacFront F Cmd) (cmd : Cmd) (v : Bool)
    (h : LoaderHolds D c rd w l p x.be.path x.mem)
    (hoff : (fe.out x.be.front).addrGenValid = true → c.Offers l (fe.out x.be.front))
    (hwt : x.mem.wt = w) (hn : x.mem.biasPendingR = false) (hsm : Smooth g x D (rd p)) :
    LoaderHolds D c rd w
      (l + ((fe.out x.be.front).addrGenValid && x.be.path.loader.loadReady).toNat)
      (p + x.be.path.peAccept.toNat)
      (x.step (macBackend fe) cmd v g).be.path (x.step (macBackend fe) cmd v g).mem := by
  set x' := x.step (macBackend fe) cmd v g with hx'
  have hpath : x'.be.path = x.be.path.step (fe.out x.be.front) (rspOf fe g x) := rfl
  have hacc : x'.mem.actBuf.beRdAcceptR = (x.be.path.loader.actMemReq && g.act) := rfl
  have hwacc : x'.mem.wtRvalid = (x.be.path.loader.wtMemReq && g.wt) :=
    NpuMemTop.wtRvalid_step hn one_reader
  cases h with
  | idle hs hp harv hwrv =>
      have hpe : x.be.path.peAccept = false := by
        simp [MacPath.peAccept, ConvLoader.pairValid, hs]
      have hareq : x.be.path.loader.actMemReq = false := by simp [ConvLoader.actMemReq, hs]
      have hwreq : x.be.path.loader.wtMemReq = false := by simp [ConvLoader.wtMemReq, hs]
      rw [hareq, Bool.false_and] at hacc
      rw [hwreq, Bool.false_and] at hwacc
      have hready : x.be.path.loader.loadReady = true := by simp [ConvLoader.loadReady, hs]
      rw [hpe, hready, Bool.and_true, Bool.toNat_false, Nat.add_zero]
      cases hv : (fe.out x.be.front).addrGenValid with
      | false =>
          rw [Bool.toNat_false, Nat.add_zero]
          refine .idle ?_ hp hacc hwacc
          simp [hpath, MacPath.step, ConvLoader.step, ConvLoader.stateNext, hs, hv]
      | true =>
          subst hp
          exact .take cmd v g hs hv (hoff hv) hn
  | req hs hp hm hz hzl haddr hwaddr hopa hopw =>
      have hpe : x.be.path.peAccept = false := by
        simp [MacPath.peAccept, ConvLoader.pairValid, hs]
      have hready : x.be.path.loader.loadReady = false := by simp [ConvLoader.loadReady, hs]
      rw [hpe, hready, Bool.and_false, Bool.toNat_false, Nat.add_zero, Nat.add_zero]
      have hload := loader_step fe cmd v g (.inl hs)
      rw [← hx'] at hload
      have hm' := hm.step fe cmd v g (by simp [hs])
      obtain ⟨hopa', hopw'⟩ := operands_step (.inl hs) hwt hn hsm (fun hreq ↦ by
        have hz' : c.zeroPad p = false := by
          rw [← hz]
          simp_all [ConvLoader.actMemReq]
        rw [MacJob.actVal, hz', if_neg Bool.false_ne_true]) (fun hreq ↦ by
        have hz' : c.zeroPad p = false := by
          rw [← hz]
          simp_all [ConvLoader.wtMemReq]
        rw [hwaddr, MacJob.wtVal, hz', if_neg Bool.false_ne_true]) hopa hopw hx'
      cases hzp : c.zeroPad p with
      | true =>
          obtain ⟨hla, hlw⟩ := hzl hzp
          refine .done ?_ hp hm' (fun hD ↦ (hopa' hD).latched ?_) (hopw'.latched ?_)
          · rw [hload]
            simp [ConvLoader.stateNext, hs, hz, hzp]
          · rw [hload]
            simp [hla]
          · rw [hload]
            simp [hlw]
      | false =>
          cases hgo : (x.be.path.loader.actLatched || (rspOf fe g x).actRdGnt) &&
              (x.be.path.loader.wtLatched || (rspOf fe g x).wtRdGnt) with
          | false =>
              refine .req ?_ hp hm' (by rw [hload, hz]) (by simp [hzp]) (by rw [hload, haddr])
                (by rw [hload, hwaddr]) hopa' hopw'
              rw [hload]
              simp only [ConvLoader.stateNext, hs, hz, hzp, Bool.false_eq_true, if_false, hgo]
          | true =>
              obtain ⟨hga, hgw⟩ := Bool.and_eq_true_iff.mp hgo
              refine .wait ?_ hp hm' hopa' hopw' ?_ ?_
              · rw [hload]
                simp only [ConvLoader.stateNext, hs, hz, hzp, Bool.false_eq_true, if_false, hgo,
                  if_true]
              · rcases Bool.or_eq_true_iff.mp hga with hl | hg
                · exact .inl (by rw [hload]; simp [hl])
                · exact .inr (hacc.trans hg)
              · rcases Bool.or_eq_true_iff.mp hgw with hl | hg
                · exact .inl (by rw [hload]; simp [hl])
                · exact .inr (hwacc.trans ((rsp_wt hn).symm.trans hg))
  | wait hs hp hm hopa hopw hgota hgotw =>
      have hpe : x.be.path.peAccept = false := by
        simp [MacPath.peAccept, ConvLoader.pairValid, hs]
      have hready : x.be.path.loader.loadReady = false := by simp [ConvLoader.loadReady, hs]
      rw [hpe, hready, Bool.and_false, Bool.toNat_false, Nat.add_zero, Nat.add_zero]
      have hload := loader_step fe cmd v g (.inr hs)
      rw [← hx'] at hload
      have hm' := hm.step fe cmd v g (by simp [hs])
      obtain ⟨hopa', hopw'⟩ := operands_step (.inr hs) hwt hn hsm
        (fun hreq ↦ by simp [ConvLoader.actMemReq, hs] at hreq)
        (fun hreq ↦ by simp [ConvLoader.wtMemReq, hs] at hreq) hopa hopw hx'
      have hla : x'.be.path.loader.actLatched = true := by
        rw [hload]
        rcases hgota with hl | hr
        · simp [hl]
        · cases hl : x.be.path.loader.actLatched <;> simp [hr]
      have hlw : x'.be.path.loader.wtLatched = true := by
        rw [hload]
        rcases hgotw with hl | hr
        · simp [hl]
        · cases hl : x.be.path.loader.wtLatched <;> simp [hr]
      cases hgo : x.be.path.loader.actLatched && x.be.path.loader.wtLatched with
      | true =>
          refine .done ?_ hp hm' (fun hD ↦ (hopa' hD).latched hla) (hopw'.latched hlw)
          rw [hload]
          simp only [ConvLoader.stateNext, hs, hgo, if_true]
      | false =>
          refine .wait ?_ hp hm' hopa' hopw' (.inl hla) (.inl hlw)
          rw [hload]
          simp only [ConvLoader.stateNext, hs, hgo, Bool.false_eq_true, if_false]
  | done hs hp hm hactr hwtr =>
      have hready : x.be.path.loader.loadReady = false := by simp [ConvLoader.loadReady, hs]
      have hareq : x.be.path.loader.actMemReq = false := by simp [ConvLoader.actMemReq, hs]
      have hwreq : x.be.path.loader.wtMemReq = false := by simp [ConvLoader.wtMemReq, hs]
      have hpe : x.be.path.peAccept = x.be.path.loadPairReady := by
        simp [MacPath.peAccept, ConvLoader.pairValid, hs]
      have hload : x'.be.path.loader =
          { x.be.path.loader with
            state := if x.be.path.loadPairReady then .idle else .done } := by
        simp [hpath, MacPath.step, ConvLoader.step, ConvLoader.stateNext, ConvLoader.taking,
          ConvLoader.receiving, hs]
      rw [hareq, Bool.false_and] at hacc
      rw [hwreq, Bool.false_and] at hwacc
      rw [hpe, hready, Bool.and_false, Bool.toNat_false, Nat.add_zero]
      cases hgo : x.be.path.loadPairReady with
      | true => exact .idle (by simp [hload, hgo]) hp hacc hwacc
      | false =>
          rw [Bool.toNat_false, Nat.add_zero]
          exact .done (by simp [hload, hgo]) hp (hm.step fe cmd v g (by simp [hs]))
            (fun hD ↦ by rw [hload, hactr hD]) (by rw [hload, hwtr])

/-! ## Steps of the processing element -/

theorem LoaderHolds.of_pairValid (h : LoaderHolds D c rd w l p x.be.path x.mem)
    (hv : x.be.path.loader.pairValid = true) : LoadMeta c p x.be.path ∧
      (D → x.be.path.loader.actR = c.actVal rd p) ∧ x.be.path.loader.wtR = c.wtVal w p := by
  have hs : x.be.path.loader.state = .done := of_decide_eq_true hv
  cases h with
  | done _ _ hm hact hwt => exact ⟨hm, hact, hwt⟩
  | idle hs' => exact absurd (hs.symm.trans hs') (by simp)
  | req hs' => exact absurd (hs.symm.trans hs') (by simp)
  | wait hs' => exact absurd (hs.symm.trans hs') (by simp)

/-- In a smooth cycle the processing element does not emit and accept. -/
theorem not_accept_of_accEn (hl : LoaderHolds D c rd w l p x.be.path x.mem)
    (h : PeHolds D c rd w p r x.be.path x.mem) (hsm : Smooth g x D (rd p))
    (he : x.be.path.accEn = true) : x.be.path.peAccept = false := by
  refine Bool.eq_false_iff.mpr fun hacc ↦ ?_
  have hpv := (Bool.and_eq_true_iff.mp hacc).1
  obtain ⟨hm, -, -⟩ := hl.of_pairValid hpv
  cases h with
  | empty hv => simp [MacPath.accEn, hv] at he
  | full hv hr hres hlast hwr hidle =>
      cases hlastr : c.lastAt r with
      | false => simp [ConvLoader.pairValid, hidle hlastr] at hpv
      | true =>
          refine hsm.noClash ⟨?_, he⟩
          rw [MacPath.clr, hacc, hm.clr, ← hr, MacJob.clrAt_succ_of_last hlastr]
          rfl

theorem PeHolds.step (fe : MacFront F Cmd) (cmd : Cmd) (v : Bool)
    (hl : LoaderHolds D c rd w l p x.be.path x.mem)
    (h : PeHolds D c rd w p r x.be.path x.mem) (hwt : x.mem.wt = w)
    (hn : x.mem.biasPendingR = false) (hsm : Smooth g x D (rd p)) :
    PeHolds D c rd w (p + x.be.path.peAccept.toNat) (r + x.be.path.accEn.toNat)
      (x.step (macBackend fe) cmd v g).be.path (x.step (macBackend fe) cmd v g).mem := by
  set x' := x.step (macBackend fe) cmd v g with hx'
  have hpath : x'.be.path = x.be.path.step (fe.out x.be.front) (rspOf fe g x) := rfl
  have hbias : x'.mem.biasRvalid = (x.be.path.lastInnerLoadR && x.be.path.peAccept) :=
    NpuMemTop.biasRvalid_step hn one_reader
  cases hacc : x.be.path.peAccept with
  | true =>
      obtain ⟨hpv, hpr⟩ := Bool.and_eq_true_iff.mp hacc
      obtain ⟨hm, hactr, hwtr⟩ := hl.of_pairValid hpv
      have hen : x.be.path.accEn = false :=
        Bool.eq_false_iff.mpr fun he ↦ by simp [not_accept_of_accEn hl h hsm he] at hacc
      cases h with
      | full hv =>
          -- A full element accepts only while it emits.
          simp_all [MacPath.loadPairReady, ConvPe.readyOut, MacPath.accEn]
      | empty hv hr hsum hb =>
          subst hr
          rw [hen, Bool.toNat_false, Bool.toNat_true, Nat.add_zero]
          rw [hacc, Bool.and_true, hm.last] at hbias
          have hclr : x.be.path.clr = c.clrAt r := by
            rw [MacPath.clr, hacc, hm.clr, Bool.and_true]
          have hpe : x'.be.path.pe =
              ⟨x.be.path.accum.accFeedback x.be.path.clr +
                macProduct x.be.path.loader.actR x.be.path.loader.wtR, true⟩ := by
            simp [hpath, MacPath.step, ConvPe.step, ConvPe.readyOut, hv, hpv]
          refine .full (by rw [hpe]) rfl ?_ ?_ ?_ ?_ ?_ ?_
          · intro hD
            rw [hpe, hclr, hactr hD, hwtr, MacJob.partialSum, ConvAccum.accFeedback]
            cases hc : c.clrAt r with
            | true => rfl
            | false => rw [hsum hD (MacJob.pos_of_not_clrAt hc)]
          · simp [hpath, MacPath.step, hacc, hm.last]
          · intro hlast
            simp [hpath, MacPath.step, hacc, hm.wrAddr hlast]
          · intro _
            have hs : x.be.path.loader.state = .done := of_decide_eq_true hpv
            simp [hpath, MacPath.step, ConvLoader.step, ConvLoader.stateNext, hs, hpr]
          · intro hbv
            refine ⟨hbias.symm.trans hbv, ?_⟩
            have hreq : (x.granted (macBackend fe) g).biasRdReq = true := by
              change (x.be.path.lastInnerLoadR && x.be.path.peAccept) = true
              rw [hacc, Bool.and_true, hm.last, ← hbias, hbv]
            refine (NpuMemTop.biasRdata_step hn one_reader hreq).trans ?_
            change x.mem.wt (x.be.path.biasAddrLoadR.setWidth 12) = _
            rw [hwt, hm.biasAddr (hbias.symm.trans hbv), MacJob.biasVal, Nat.add_zero]
          · exact fun hlast ↦ .inl (hbias.trans hlast)
  | false =>
      rw [Bool.toNat_false, Nat.add_zero]
      rw [hacc, Bool.and_false] at hbias
      have hclr : x.be.path.clr = false := by rw [MacPath.clr, hacc, Bool.and_false]
      have hnotake : (x.be.path.loader.pairValid && x.be.path.pe.readyOut x.be.path.peReadyOut) =
          false := hacc
      have hpe : x'.be.path.pe = { x.be.path.pe with
          validR := if x.be.path.accEn then false else x.be.path.pe.validR } := by
        simp [hpath, MacPath.step, ConvPe.step, hnotake, MacPath.accEn]
      have haccum : x'.be.path.accum.accR =
          if x.be.path.accEn then x.be.path.pe.resultR else x.be.path.accum.accR := by
        simp [hpath, MacPath.step, ConvAccum.step, hclr]
      cases h with
      | empty hv hr hsum hb =>
          have hen : x.be.path.accEn = false := by simp [MacPath.accEn, hv]
          rw [hen, if_neg Bool.false_ne_true] at hpe haccum
          rw [hen, Bool.toNat_false, Nat.add_zero]
          exact .empty (by rw [hpe, hv]) hr (by rw [haccum]; exact hsum) hbias
      | full hv hr hres hlast hwr hidle hb hgot =>
          cases hen : x.be.path.accEn with
          | true =>
              rw [hen, if_pos rfl] at hpe haccum
              rw [Bool.toNat_true]
              exact .empty (by rw [hpe]) hr (fun hD _ ↦ by rw [haccum, hres hD]) hbias
          | false =>
              rw [hen, if_neg Bool.false_ne_true] at hpe haccum
              rw [Bool.toNat_false, Nat.add_zero]
              -- Only a last result is ever held back.
              have hlastr : c.lastAt r = true := by
                by_contra hne
                simp_all [MacPath.accEn, MacPath.peReadyOut]
              have hval : x'.be.path.biasVal = c.biasVal w (r / c.its) := by
                change (if x.mem.biasRvalid then x.mem.wtBuf.sram.bRdata else x.be.path.biasVal) = _
                rcases hgot hlastr with hbv | hval
                · rw [if_pos hbv]
                  exact (hb hbv).2
                · split
                  · next hbv => exact (hb hbv).2
                  · exact hval
              refine .full (by rw [hpe, hv]) hr (fun hD ↦ by rw [hpe, hres hD]) ?_ ?_ ?_ ?_ ?_
              · simp [hpath, MacPath.step, hacc, hlast]
              · intro hl'
                simp [hpath, MacPath.step, hacc, hwr hl']
              · exact fun hl' ↦ absurd (hlastr.symm.trans hl') (by simp)
              · exact fun hbv ↦ absurd (hbias.symm.trans hbv) Bool.false_ne_true
              · exact fun _ ↦ .inr hval

/-! ## Steps of the post-processing stages -/

theorem ConvWriter.step_of_valid {s : ConvWriter} {a : Addr} {d : Byte} {av iv gnt : Bool}
    (h : iv = true → av = true) : s.step a av d iv gnt = s.step a true d iv gnt := by
  cases iv with
  | true => rw [h rfl]
  | false => simp [ConvWriter.step]

theorem PeHolds.of_accEn (h : PeHolds D c rd w p r x.be.path x.mem) (he : x.be.path.accEn = true) :
    x.be.path.lastInnerD = c.lastAt r ∧
      (c.lastAt r = true → x.be.path.wrAddrD = c.wrAddr (r / c.its)) ∧
      (c.lastAt r = true →
        (if x.mem.biasRvalid then x.mem.wtBuf.sram.bRdata else x.be.path.biasVal) =
          c.biasVal w (r / c.its)) := by
  cases h with
  | empty hv => simp [MacPath.accEn, hv] at he
  | full hv hr hres hlast hwr hidle hb hgot =>
      refine ⟨hlast, hwr, fun hl ↦ ?_⟩
      rcases hgot hl with hbv | hval
      · rw [if_pos hbv]
        exact (hb hbv).2
      · split
        · next hbv => exact (hb hbv).2
        · exact hval

theorem ppTrigger_eq : x.be.path.ppTrigger = (x.be.path.lastInnerD && x.be.path.accEn) :=
  Bool.and_assoc _ _ _

/-- A trigger finds room in the first stage and in the address queue. -/
theorem ready_of_ppTrigger (ht : x.be.path.ppTrigger = true) :
    x.be.path.ppInReady = true ∧ x.be.path.wrAddrQ.inReady = true := by
  obtain ⟨hlv, hready⟩ := Bool.and_eq_true_iff.mp ht
  rw [MacPath.peReadyOut, (Bool.and_eq_true_iff.mp hlv).1, if_pos rfl] at hready
  exact Bool.and_eq_true_iff.mp hready

/-- Only the last iteration of an element sets the trigger off. -/
theorem PeHolds.of_ppTrigger (h : PeHolds D c rd w p r x.be.path x.mem)
    (ht : x.be.path.ppTrigger = true) : x.be.path.accEn = true ∧ c.lastAt r = true := by
  rw [ppTrigger_eq] at ht
  obtain ⟨hlast, he⟩ := Bool.and_eq_true_iff.mp ht
  exact ⟨he, (h.of_accEn he).1.symm.trans hlast⟩

/-- The elements emitted so far. -/
theorem PeHolds.div_step (h : PeHolds D c rd w p r x.be.path x.mem) (hc : c.Positive) :
    (r + x.be.path.accEn.toNat) / c.its = r / c.its + x.be.path.ppTrigger.toNat := by
  rw [ppTrigger_eq]
  cases he : x.be.path.accEn with
  | false => simp
  | true =>
      rw [(h.of_accEn he).1, Bool.and_true, Bool.toNat_true]
      cases hlast : c.lastAt r with
      | true => exact (MacJob.succ_div_of_last hc hlast).1
      | false => exact MacJob.succ_div_of_not_last hlast

/-- A token in the last stage has its address at the head of the queue. -/
theorem PostHolds.paired {s : MacPath} (h : PostHolds D c rd w r n s)
    (hq : s.postproc.quant.valid = true) : s.wrAddrQ.outValid = true := by
  have hcount := h.count
  rw [hq, Bool.toNat_true] at hcount
  rw [h.addrs.outValid_eq, decide_eq_true_eq]
  omega

theorem PostHolds.pop {s : MacPath} (h : PostHolds D c rd w r n s) :
    (s.wrAddrQ.outValid && (s.postproc.quant.valid && s.ppOutReady)) =
      (s.postproc.quant.valid && s.ppOutReady) := by
  cases hq : s.postproc.quant.valid with
  | false => simp
  | true => rw [h.paired hq, Bool.true_and]

theorem PostHolds.writer_step (fe : MacFront F Cmd) (cmd : Cmd) (v : Bool) (g : Grants)
    (h : PostHolds D c rd w r n x.be.path) :
    (x.step (macBackend fe) cmd v g).be.path.writer =
      x.be.path.writer.step x.be.path.wrAddrQ.outData true x.be.path.postproc.quant.data
        x.be.path.postproc.quant.valid (x.be.path.writer.memReq && g.out) :=
  ConvWriter.step_of_valid h.paired

theorem ConvWriter.memReq_granted (s : ConvWriter) (b : Bool) :
    (s.memReq && (s.memReq && b)) = (s.memReq && b) := by
  rw [← Bool.and_assoc, Bool.and_self]

/-- What the writer and the stages pass on from one cycle to the next. -/
structure Passes (s s' : MacPath) (n n' : ℕ) : Prop where
  quant : s'.atQuant n' = s.atQuant n + (s.postproc.quant.valid && s.ppOutReady).toNat
  relu : s'.atRelu n' =
    s.atRelu n + (s.postproc.relu.valid && s.postproc.quantReady s.ppOutReady).toNat
  bias : s'.atBias n' =
    s.atBias n + (s.postproc.bias.valid && s.postproc.reluReady s.ppOutReady).toNat
  trigger : s'.atTrigger n' = s.atTrigger n + s.ppTriggerR.toNat
  count : s'.wrAddrQ.count = s'.postproc.quant.valid.toNat + s'.postproc.relu.valid.toNat +
    s'.postproc.bias.valid.toNat + s.ppTrigger.toNat

theorem PostHolds.passes (fe : MacFront F Cmd) (cmd : Cmd) (v : Bool) (g : Grants)
    (h : PostHolds D c rd w r n x.be.path) :
    Passes x.be.path (x.step (macBackend fe) cmd v g).be.path n
      (n + (x.be.path.writer.memReq && g.out).toNat) := by
  set s := x.be.path with hs
  set s' := (x.step (macBackend fe) cmd v g).be.path with hs'
  have hwriter : s'.writer = _ := h.writer_step fe cmd v g
  have mvWriter := s.writer.pending_step s.wrAddrQ.outData s.postproc.quant.data
    s.postproc.quant.valid (s.writer.memReq && g.out)
  rw [← hwriter, ConvWriter.memReq_granted] at mvWriter
  have mvQuant : (s.postproc.quant.valid && s.ppOutReady).toNat +
      s'.postproc.quant.valid.toNat = s.postproc.quant.valid.toNat +
        (s.postproc.relu.valid && s.postproc.quantReady s.ppOutReady).toNat :=
    s.postproc.quant.count_step _ _ _
  have mvRelu : (s.postproc.relu.valid && s.postproc.quantReady s.ppOutReady).toNat +
      s'.postproc.relu.valid.toNat = s.postproc.relu.valid.toNat +
        (s.postproc.bias.valid && s.postproc.reluReady s.ppOutReady).toNat :=
    s.postproc.relu.count_step _ _ _
  have mvBias : (s.postproc.bias.valid && s.postproc.reluReady s.ppOutReady).toNat +
      s'.postproc.bias.valid.toNat = s.postproc.bias.valid.toNat +
        (s.ppTriggerR && s.postproc.bias.inReady (s.postproc.reluReady s.ppOutReady)).toNat :=
    s.postproc.bias.count_step _ _ _
  have mvAddrs : (s.wrAddrQ.outValid && (s.postproc.quant.valid && s.ppOutReady)).toNat +
      s'.wrAddrQ.count = s.wrAddrQ.count + (s.ppTrigger && s.wrAddrQ.inReady).toNat :=
    h.addrs.count_step _ _ _
  -- A token triggered finds the first stage empty, and its address finds room.
  have hin : (s.ppTriggerR && s.postproc.bias.inReady (s.postproc.reluReady s.ppOutReady)) =
      s.ppTriggerR := by
    cases ht : s.ppTriggerR with
    | false => rfl
    | true =>
        rw [PipelineReg.inReady, (h.trigger ht).2.1]
        rfl
  have hpush : (s.ppTrigger && s.wrAddrQ.inReady) = s.ppTrigger := by
    cases ht : s.ppTrigger with
    | false => rfl
    | true => rw [(ready_of_ppTrigger ht).2, Bool.and_self]
  rw [hin] at mvBias
  rw [h.pop, hpush] at mvAddrs
  change _ = _ + (s.postproc.quant.valid && s.ppOutReady).toNat at mvWriter
  have hcount := h.count
  set n' := n + (s.writer.memReq && g.out).toNat with hn'
  have hquant : s'.atQuant n' = s.atQuant n + (s.postproc.quant.valid && s.ppOutReady).toNat := by
    simp only [MacPath.atQuant]
    omega
  have hrelu : s'.atRelu n' = s.atRelu n +
      (s.postproc.relu.valid && s.postproc.quantReady s.ppOutReady).toNat := by
    simp only [MacPath.atRelu, hquant]
    omega
  have hbias : s'.atBias n' = s.atBias n +
      (s.postproc.bias.valid && s.postproc.reluReady s.ppOutReady).toNat := by
    simp only [MacPath.atBias, hrelu]
    omega
  have htrigger : s'.atTrigger n' = s.atTrigger n + s.ppTriggerR.toNat := by
    simp only [MacPath.atTrigger, hbias]
    omega
  exact ⟨hquant, hrelu, hbias, htrigger, by omega⟩

/-- The processing element and the first stage are empty when the trigger is
set. -/
theorem PostHolds.trigger_step (fe : MacFront F Cmd) (cmd : Cmd) (v : Bool)
    (hl : LoaderHolds D c rd w l p x.be.path x.mem) (hpe : PeHolds D c rd w p r x.be.path x.mem)
    (h : PostHolds D c rd w r n x.be.path) (hsm : Smooth g x D (rd p))
    (ht : x.be.path.ppTrigger = true) : x.be.path.ppTriggerR = false ∧
      (x.step (macBackend fe) cmd v g).be.path.pe.validR = false ∧
      (x.step (macBackend fe) cmd v g).be.path.postproc.bias.valid = false := by
  obtain ⟨he, -⟩ := hpe.of_ppTrigger ht
  have hidle : x.be.path.ppTriggerR = false := by
    refine Bool.eq_false_iff.mpr fun hold ↦ ?_
    simp [MacPath.accEn, (h.trigger hold).1] at he
  refine ⟨hidle, ?_, ?_⟩
  · have hno := not_accept_of_accEn hl hpe hsm he
    change (if x.be.path.peAccept then true else if x.be.path.accEn then false else _) = false
    rw [hno, he]
    rfl
  · have hready := (ready_of_ppTrigger ht).1
    change (!x.be.path.postproc.bias.valid ||
      x.be.path.postproc.reluReady x.be.path.ppOutReady) = true at hready
    change (x.be.path.postproc.bias.step _ x.be.path.ppTriggerR
      (x.be.path.postproc.reluReady x.be.path.ppOutReady)).valid = false
    rw [hidle]
    cases hv : x.be.path.postproc.bias.valid <;> simp_all [PipelineReg.step]

theorem PostHolds.step (cmd : Cmd) (v : Bool)
    (hl : LoaderHolds D c rd w l p x.be.path x.mem)
    (hpe : PeHolds D c rd w p r x.be.path x.mem) (h : PostHolds D c rd w r n x.be.path)
    (hc : c.Positive) (hsm : Smooth g x D (rd p))
    (hshift : (fe.out x.be.front).quantShift = c.quantShift)
    (hmode : (fe.out x.be.front).actMode = c.actMode) :
    PostHolds D c rd w (r + x.be.path.accEn.toNat) (n + (x.be.path.writer.memReq && g.out).toNat)
      (x.step (macBackend fe) cmd v g).be.path := by
  have hpasses := h.passes fe cmd v g
  have hgnt := x.be.path.writer.memReq_granted g.out
  have hfired := h.fired
  refine ⟨?_, fun hD ↦ ?_, fun hD ↦ ?_, fun hD ↦ ?_, fun hD ↦ ?_, ?_, hpasses.count, fun ht ↦ ?_,
    ?_⟩
  · have hnext := h.writer.step x.be.path.postproc.quant.data (x.be.path.writer.memReq && g.out)
      fun hv ↦ h.addrs.out (h.paired hv)
    rw [hgnt] at hnext
    rw [h.writer_step]
    exact hnext
  · have hnext := (h.data hD).step x.be.path.wrAddrQ.outData (x.be.path.writer.memReq && g.out)
      fun hv ↦ h.quant hD hv
    rw [hgnt] at hnext
    rw [h.writer_step]
    exact hnext
  · rw [hpasses.quant]
    exact (h.quant hD).step fun hv ↦ by rw [h.relu hD hv, hshift]; rfl
  · rw [hpasses.relu]
    exact (h.relu hD).step fun hv ↦ by rw [h.bias hD hv, hmode]; rfl
  · rw [hpasses.bias]
    refine (h.bias hD).step fun hv ↦ ?_
    obtain ⟨hpv, -, hval, hrt⟩ := h.trigger hv
    cases hpe with
    | full hv' => exact absurd (hpv.symm.trans hv') Bool.false_ne_true
    | empty _ hrp hsum =>
        have hpos : 0 < p := by
          rw [← hrp, hrt]
          exact Nat.mul_pos (Nat.succ_pos _) hc.its
        rw [hval, hsum hD hpos, ← hrp, hrt]
        rfl
  · have hnext := h.addrs.step x.be.path.wrAddrD x.be.path.ppTrigger
      (x.be.path.postproc.quant.valid && x.be.path.ppOutReady) fun hv ↦ ?_
    · rw [h.pop] at hnext
      rw [hpasses.quant]
      exact hnext
    · obtain ⟨he, hlast⟩ := hpe.of_ppTrigger hv
      have hcount := h.count
      rw [(hpe.of_accEn he).2.1 hlast]
      congr 1
      simp only [MacPath.atTrigger, MacPath.atBias, MacPath.atRelu] at hfired
      omega
  · obtain ⟨hidle, hpv, hbv⟩ := h.trigger_step fe cmd v hl hpe hsm ht
    obtain ⟨he, hlast⟩ := hpe.of_ppTrigger ht
    have hat := hpasses.trigger
    rw [hidle, Bool.toNat_false, Nat.add_zero] at hfired hat
    refine ⟨hpv, hbv, ?_, ?_⟩
    · rw [hat, hfired]
      exact (hpe.of_accEn he).2.2 hlast
    · rw [hat, hfired, he]
      exact (MacJob.succ_div_of_last hc hlast).2
  · rw [hpasses.trigger, hfired, hpe.div_step hc]
    rfl

end Step

end LgNpu
