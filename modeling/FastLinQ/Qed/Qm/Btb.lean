import FastLinQ.Qed.Qm.Basic

/-!
# Guaranteed blocks of the transmit buffer (BTB)

`qed_btb_blocks_rt_init` divides the BTB blocks of each active port between its virtual output
queues (VOQs): one for each physical traffic class (TC), and one for pure loopback. The comment of
the function gives the rule with a fraction, `max(38, B / (C + 0.7))` for loopback. The code scales
the fraction by 10, and then divides its quotient by 10 once more.
-/

namespace FastLinQ.Qed

open List

def MAX_NUM_PORTS_BB : ℕ := 2
def BTB_JUMBO_PKT_BLOCKS : ℕ := 38
def BTB_HEADROOM_BLOCKS : ℕ := BTB_JUMBO_PKT_BLOCKS
def BTB_PURE_LB_FACTOR : ℕ := 10
def BTB_PURE_LB_RATIO : ℕ := 7

/-- `VOQ`, as a byte. -/
def voq (port tc maxPhysTcsPerPort : ℕ) : ℕ :=
  (if tc = PURE_LB_TC then NUM_OF_PHYS_TCS * MAX_NUM_PORTS_BB + port
    else port * maxPhysTcsPerPort + tc) % 2 ^ 8

structure InitQmPortParams where
  activePhysTcs : BitVec 16
  numBtbBlocks : BitVec 16
  active : Bool

namespace InitQmPortParams

variable (p : InitQmPortParams) (port maxTcs : ℕ)

def tcs : List ℕ := (range NUM_OF_PHYS_TCS).filter p.activePhysTcs.getLsbD

def numTcsInPort : ℕ := (range NUM_OF_PHYS_TCS).countP p.activePhysTcs.getLsbD

def stores (physBlocks pureLbBlocks : ℕ) : List (ℕ × ℕ) :=
  p.tcs.map (fun tc => (voq port tc maxTcs, physBlocks)) ++
    [(voq port PURE_LB_TC maxTcs, pureLbBlocks)]

/-- One turn of the loop over the ports: `phys_blocks`, and what is stored. -/
def btbBlocks (physBlocks : ℕ) : ℕ × List (ℕ × ℕ) :=
  let usableBlocks := Word.sub 32 p.numBtbBlocks.toNat BTB_HEADROOM_BLOCKS
  let pureLbBlocks := usableBlocks * BTB_PURE_LB_FACTOR % 2 ^ 32 /
    (p.numTcsInPort * BTB_PURE_LB_FACTOR + BTB_PURE_LB_RATIO)
  let pureLbBlocks := max BTB_JUMBO_PKT_BLOCKS (pureLbBlocks / BTB_PURE_LB_FACTOR)
  let physBlocks := if p.numTcsInPort ≠ 0 then
    Word.sub 32 usableBlocks pureLbBlocks / p.numTcsInPort else physBlocks
  (physBlocks, p.stores port maxTcs physBlocks pureLbBlocks)

/-- The rule of the comment: `B`, the blocks for pure loopback, and those for a TC. -/
def usable : ℕ := p.numBtbBlocks.toNat - 38

def documentedLb : ℕ := max 38 ⌊(p.usable : ℚ) / (p.numTcsInPort + 7 / 10)⌋₊

def documentedPhys : ℕ := ⌊((p.usable - p.documentedLb : ℕ) : ℚ) / p.numTcsInPort⌋₊

/-- What the rule stores for a port. -/
def documented : List (ℕ × ℕ) := p.stores port maxTcs p.documentedPhys p.documentedLb

/-- The port has blocks for two jumbo packets, and a TC. -/
def Sized : Prop := 76 ≤ p.numBtbBlocks.toNat ∧ 0 < p.numTcsInPort
  deriving Decidable

end InitQmPortParams

open InitQmPortParams

section

variable (maxPorts maxTcs : ℕ) (ports : ℕ → InitQmPortParams)

/-- The loop over the ports: `phys_blocks`, and what was stored so far. -/
def btbTurn (s : ℕ × List (ℕ × ℕ)) (port : ℕ) : ℕ × List (ℕ × ℕ) :=
  if !(ports port).active then s
  else
    let r := (ports port).btbBlocks port maxTcs s.1
    (r.1, s.2 ++ r.2)

/-- `qed_btb_blocks_rt_init`: the values that are stored for VOQs, in order. -/
def qedBtbBlocksRtInit : List (ℕ × ℕ) := ((range maxPorts).foldl (btbTurn maxTcs ports) (0, [])).2

def activePorts : List ℕ := (range maxPorts).filter fun port => (ports port).active

/-- The stores are those of the rule, and no port hands out more blocks than it has. -/
def BtbDocumented : Prop :=
  qedBtbBlocksRtInit maxPorts maxTcs ports =
      (activePorts maxPorts ports).flatMap (fun port => (ports port).documented port maxTcs) ∧
    ∀ port ∈ activePorts maxPorts ports,
      (((ports port).btbBlocks port maxTcs 0).2.map Prod.snd).sum + BTB_HEADROOM_BLOCKS ≤
        (ports port).numBtbBlocks.toNat

end

/-! ## One port -/

namespace InitQmPortParams

variable {p : InitQmPortParams} {port maxTcs : ℕ}

theorem documentedLb_eq :
    p.documentedLb = max 38 (p.usable * 10 / (p.numTcsInPort * 10 + 7)) := by
  have hscale : (p.usable : ℚ) / (p.numTcsInPort + 7 / 10) =
      (p.usable * 10 : ℕ) / (p.numTcsInPort * 10 + 7 : ℕ) := by
    push_cast
    field_simp
  rw [documentedLb, hscale, Nat.floor_div_eq_div]

/-- The blocks for pure loopback, as the code computes them. -/
def pureLb (p : InitQmPortParams) : ℕ := max 38 (p.usable * 10 / (p.numTcsInPort * 10 + 7) / 10)

theorem pureLb_le (h : p.Sized) : p.pureLb ≤ p.usable := by
  have hbig := h.1
  have hdiv := Nat.div_le_self (p.usable * 10) (p.numTcsInPort * 10 + 7)
  rw [pureLb, usable] at *
  omega

/-- The stores of a port, without the machine arithmetic. -/
theorem btbBlocks_eq (h : p.Sized) (physBlocks : ℕ) : (p.btbBlocks port maxTcs physBlocks).2 =
    p.stores port maxTcs ((p.usable - p.pureLb) / p.numTcsInPort) p.pureLb := by
  have hle := pureLb_le h
  obtain ⟨hbig, hpos⟩ := h
  have hlt := p.numBtbBlocks.isLt
  have husable : Word.sub 32 p.numBtbBlocks.toNat BTB_HEADROOM_BLOCKS = p.usable :=
    Word.sub_of_le_of_lt (le_trans (by decide) hbig) (by omega)
  have hsmall : p.usable < 2 ^ 16 := lt_of_le_of_lt (Nat.sub_le ..) hlt
  have hmul : p.usable * BTB_PURE_LB_FACTOR % 2 ^ 32 = p.usable * 10 :=
    Nat.mod_eq_of_lt (by rw [BTB_PURE_LB_FACTOR]; omega)
  have hphys : Word.sub 32 p.usable p.pureLb = p.usable - p.pureLb :=
    Word.sub_of_le_of_lt hle (by omega)
  simp only [btbBlocks, husable, hmul, if_pos hpos.ne']
  rw [← hphys]
  rfl

/-- **The code follows its rule** just if the fraction is not more than a jumbo packet. -/
theorem btbBlocks_eq_documented_iff (h : p.Sized) (physBlocks : ℕ) :
    (p.btbBlocks port maxTcs physBlocks).2 = p.documented port maxTcs ↔
      p.usable * 10 / (p.numTcsInPort * 10 + 7) ≤ 38 := by
  have hlb : p.pureLb = p.documentedLb ↔ p.usable * 10 / (p.numTcsInPort * 10 + 7) ≤ 38 := by
    rw [documentedLb_eq, pureLb]
    omega
  rw [btbBlocks_eq h, ← hlb, documented, documentedPhys, Nat.floor_div_eq_div]
  constructor
  · intro heq
    simpa [stores] using (append_inj' heq rfl).2
  · intro heq
    rw [heq]

theorem sum_btbBlocks_le (h : p.Sized) (physBlocks : ℕ) :
    ((p.btbBlocks port maxTcs physBlocks).2.map Prod.snd).sum + BTB_HEADROOM_BLOCKS ≤
      p.numBtbBlocks.toNat := by
  have hle := pureLb_le h
  have hdiv := Nat.mul_div_le (p.usable - p.pureLb) p.numTcsInPort
  have hlen : p.tcs.length = p.numTcsInPort := (countP_eq_length_filter ..).symm
  have hroom : p.usable + BTB_HEADROOM_BLOCKS = p.numBtbBlocks.toNat :=
    Nat.sub_add_cancel (le_trans (by decide) h.1)
  simp [btbBlocks_eq h, stores, Function.comp_def, hlen]
  omega

end InitQmPortParams

/-! ## All ports -/

section

variable {maxPorts maxTcs : ℕ} {ports : ℕ → InitQmPortParams}

theorem foldl_btbTurn {l : List ℕ} (s : ℕ × List (ℕ × ℕ))
    (h : ∀ port ∈ l.filter fun port => (ports port).active, (ports port).Sized) :
    (l.foldl (btbTurn maxTcs ports) s).2 = s.2 ++ (l.filter fun port => (ports port).active).flatMap
      fun port => ((ports port).btbBlocks port maxTcs 0).2 := by
  induction l generalizing s with
  | nil => exact (append_nil _).symm
  | cons port l ih =>
    rw [foldl_cons, btbTurn]
    cases hactive : (ports port).active with
    | false =>
      rw [filter_cons_of_neg (by simp [hactive])] at h ⊢
      exact ih s h
    | true =>
      rw [filter_cons_of_pos (by simp [hactive])] at h ⊢
      obtain ⟨hport, hl⟩ := forall_mem_cons.1 h
      rw [flatMap_cons, ← append_assoc, btbBlocks_eq hport 0, ← btbBlocks_eq hport s.1]
      exact ih _ hl

/-- Two ways to fill the same places agree if they agree place by place. -/
theorem flatMap_inj_iff {α β : Type*} {f g : α → List β} {l : List α}
    (hlen : ∀ a ∈ l, (f a).length = (g a).length) :
    l.flatMap f = l.flatMap g ↔ ∀ a ∈ l, f a = g a := by
  induction l with
  | nil => simp
  | cons a l ih =>
    obtain ⟨ha, hl⟩ := forall_mem_cons.1 hlen
    rw [flatMap_cons, flatMap_cons, forall_mem_cons, ← ih hl]
    exact ⟨fun heq => append_inj heq ha, fun heq => congrArg₂ _ heq.1 heq.2⟩

/-- **The blocks are divided as documented**, just if no port has more than 38 blocks for pure
loopback by the rule. -/
theorem btb_documented_iff (h : ∀ port ∈ activePorts maxPorts ports, (ports port).Sized) :
    BtbDocumented maxPorts maxTcs ports ↔ ∀ port ∈ activePorts maxPorts ports,
      (ports port).usable * 10 / ((ports port).numTcsInPort * 10 + 7) ≤ 38 := by
  have hsum := fun port hport => @sum_btbBlocks_le _ port maxTcs (h port hport) 0
  rw [BtbDocumented, and_iff_left hsum, qedBtbBlocksRtInit, foldl_btbTurn (0, []) h, nil_append,
    ← activePorts, flatMap_inj_iff]
  · exact forall₂_congr fun port hport => btbBlocks_eq_documented_iff (h port hport) 0
  · intro port hport
    simp [btbBlocks_eq (h port hport), documented, stores]

/-- One port with one TC and 102 blocks. -/
theorem btb_documented_one : BtbDocumented 1 8 fun _ => ⟨1, 102, true⟩ :=
  (btb_documented_iff (by decide)).2 (by decide)

/-- One port with one TC and 200 blocks: the rule gives 95 blocks to pure loopback, the code 38. -/
theorem not_btb_documented : ¬ BtbDocumented 1 8 fun _ => ⟨1, 200, true⟩ := by
  rintro ⟨heq, -⟩
  have hport : (btbBlocks ⟨1, 200, true⟩ 0 8 0).2 = documented ⟨1, 200, true⟩ 0 8 ++ [] := heq
  rw [append_nil, btbBlocks_eq_documented_iff (by decide)] at hport
  revert hport
  decide

end

end FastLinQ.Qed
