import FastLinQ.Qedr.Send

/-!
# Completion loops

The loops of `process_req` and `process_resp_flush` complete the oldest request of a queue in each
turn, and fill an entry of the client's array for it, or none. `drain_served` is what such a loop
does under a notice of the device: it reports what is to be reported, in order, up to the last
request that the notice completes, or until the array is full.
-/

namespace FastLinQ.Qedr

open Qed Completion List

theorem length_entries (ds : List WrDone) :
    (entries ds).length = (ds.filter fun d => d.wc.isSome).length := by
  induction ds with
  | nil => rfl
  | cons d ds ih =>
    rw [entries, filterMap_cons, filter_cons]
    cases hd : d.wc with
    | none => exact ih
    | some wc => exact congrArg Nat.succ ih

theorem entries_append (ds ds' : List WrDone) : entries (ds ++ ds') = entries ds ++ entries ds' :=
  filterMap_append

theorem entries_concat (ds : List WrDone) (d : WrDone) : entries (ds ++ [d]) =
    entries ds ++ d.wc.toList := by
  have hone : entries [d] = d.wc.toList := by
    unfold entries
    rw [filterMap_cons]
    cases d.wc with
    | none => rfl
    | some wc => rfl
  rw [entries_append, hone]

section Loop

variable {σ I S : Type*} {wq : σ → HwqInfo} {ids : σ → ℕ → I} {turn : σ → σ × WrDone}
  {wc : I → Option IbWc} {s : σ} {posted : List I} {c : ℕ}

/-- A turn completes the oldest request of a queue, and fills the entry `wc` for it. -/
structure Completes (wq : σ → HwqInfo) (ids : σ → ℕ → I) (turn : σ → σ × WrDone)
    (wc : I → Option IbWc) : Prop where
  next : ∀ s, ∃ size e, wq (turn s).1 = (wq s).complete size ∧
    ids (turn s).1 = Function.update (ids s) (wq s).cons e
  filled : ∀ s, (turn s).2.wc = wc (ids s (wq s).cons)

theorem Completes.queue (ht : Completes wq ids turn wc) (h : QueueAt (wq s) (ids s) posted c)
    (hlt : c < posted.length) : QueueAt (wq (turn s).1) (ids (turn s).1) posted (c + 1) := by
  obtain ⟨size, e, hwq, hids⟩ := ht.next s
  rw [hwq, hids]
  exact h.complete hlt size e

theorem Completes.maxWr (ht : Completes wq ids turn wc) (s : σ) :
    (wq (turn s).1).maxWr = (wq s).maxWr := by
  obtain ⟨size, e, hwq, -⟩ := ht.next s
  rw [hwq]
  rfl

variable {out : S → Bool → I → List IbWc} {log todo : List (Notice S)} {status : S} {a b : ℕ}
  {reported : List IbWc}

/-- **A completion loop** under a notice that completes the requests before `a`. It is to come to
`b`. -/
theorem drain_served (ht : Completes wq ids turn wc) {X : ℕ → List WrDone → σ → Prop}
    (hX : ∀ c' ds s', c ≤ c' → c' < b → QueueAt (wq s') (ids s') posted c' → X c' ds s' →
      X (c' + 1) (ds ++ [(turn s').2]) (turn s').1)
    (hout : ∀ c' e, c ≤ c' → c' < b → (wc e).toList = out status (decide (c' + 1 = a)) e)
    (h : QueueAt (wq s) (ids s) posted c) (hmax : (wq s).maxWr < 2 ^ 16)
    (hs : Served out posted log c (⟨a - c, status⟩ :: todo) reported) (hcb : c ≤ b) (hba : b ≤ a)
    (ha : a ≤ posted.length) (hx : X c [] s) (n : ℕ) :
    let r := drain (fun s => (wq s).wqeCons == b % 2 ^ 16) turn (·.wc.isSome)
      (Word.sub 16 (b % 2 ^ 16) (wq s).wqeCons) n s
    ∃ c', c ≤ c' ∧ c' ≤ b ∧ QueueAt (wq r.1) (ids r.1) posted c' ∧ (wq r.1).maxWr = (wq s).maxWr ∧
      Served out posted log c' (⟨a - c', status⟩ :: todo) (reported ++ entries r.2) ∧
      X c' r.2 r.1 ∧ (entries r.2).length ≤ n ∧ (c' = b ∨ (entries r.2).length = n) := by
  let P : ℕ → List WrDone → σ → Prop := fun c' ds s' =>
    c ≤ c' ∧ QueueAt (wq s') (ids s') posted c' ∧ (wq s').maxWr = (wq s).maxWr ∧
      Served out posted log c' (⟨a - c', status⟩ :: todo) (reported ++ entries ds) ∧ X c' ds s'
  have hstop : ∀ c' ds s', c' ≤ b → P c' ds s' →
      (((wq s').wqeCons == b % 2 ^ 16) = true ↔ c' = b) := by
    rintro c' ds s' hle ⟨-, hq, hm, -, -⟩
    rw [beq_iff_eq]
    exact hq.wqeCons_eq_iff (by omega) hle (hba.trans ha)
  have hturn : ∀ c' ds s', c' < b → P c' ds s' → ((wq s').wqeCons == b % 2 ^ 16) = false ∧
      P (c' + 1) (ds ++ [(turn s').2]) (turn s').1 := by
    intro c' ds s' hlt hP
    refine ⟨Bool.eq_false_iff.2 fun heq => hlt.ne ((hstop c' ds s' hlt.le hP).1 heq), ?_⟩
    obtain ⟨hle, hq, hm, hserved, hx'⟩ := hP
    have hposted : c' < posted.length := hlt.trans_le (hba.trans ha)
    refine ⟨hle.trans (Nat.le_succ c'), ht.queue hq hposted, (ht.maxWr s').trans hm, ?_,
      hX c' ds s' hle hlt hq hx'⟩
    have hget := List.getElem?_eq_getElem hposted
    have hleft : a - c' = a - (c' + 1) + 1 := by omega
    have hlast : decide (c' + 1 = a) = decide (a - (c' + 1) = 0) := decide_eq_decide.2 (by omega)
    rw [hleft] at hserved
    have hnext := hserved.advance hget
    rwa [← hlast, ← hout c' _ hle hlt, append_assoc, ← hq.entry hget, ← ht.filled,
      ← entries_concat] at hnext
  have hturns := h.turns_eq hmax hcb (hba.trans ha)
  have hstart : P c [] s := by
    refine ⟨le_rfl, h, rfl, ?_, hx⟩
    rwa [show entries [] = [] from rfl, append_nil]
  intro r
  obtain ⟨c', -, hle, ⟨hcc, hq, hm, hserved, hx'⟩, hcount, hall⟩ :=
    drain_spec (·.wc.isSome) (P := P)
    hturn (fun ds s' hP => (hstop b ds s' le_rfl hP).2 rfl) hcb [] hstart
    (t := Word.sub 16 (b % 2 ^ 16) (wq s).wqeCons) (by omega) n
  rw [← length_entries] at hcount hall
  exact ⟨c', hcc, hle, hq, hm, hserved, hx', hcount, hall⟩

end Loop

end FastLinQ.Qedr
