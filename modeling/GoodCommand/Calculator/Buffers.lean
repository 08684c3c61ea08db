import GoodCommand.Calculator.Agreement
import GoodCommand.Calculator.Runs

/-! The memory of `mtob`: its stack, its output buffer, and the characters it asks the priority of,
on texts in which no `)` comes before its `(`. -/

namespace GoodCommand.Calculator.StringStack
open Fuel Shunting

variable {P : Platform} {s : List Char} {ov : ℕ} {st : Scan} {K out : List Char}

structure Within (P : Platform) (s : List Char) (ov : ℕ) (st : Scan) (K out : List Char) :
    Prop where
  scanning : Scanning s ov st K out
  lexes : ∃ es, Lexes P (s.drop st.scandIndex) es
  open_le : ∀ pre, pre <+: s.drop st.scandIndex → pre.count ')' ≤ pre.count '(' + K.count '('
  legal : ∀ q ∈ K, isLegalOp q = true
  noRight : ')' ∉ K

theorem Within.start (hs : InAlphabet s) (hpar : PrefixBalanced s) (hsize : Sized s) {g : Globals}
    (hg : g.it.val = -1) : ∃ st, mtobStart s g = .ok st ∧ Within P s g.overflows st [] [] := by
  obtain ⟨st, hst, hscan, hidx⟩ := Scanning.start hsize hg
  refine ⟨st, hst, hscan, ?_, ?_, by simp, by simp⟩
  · rw [hidx, List.drop_zero]
    exact exists_lexes P hs
  · simpa [hidx, PrefixBalanced] using hpar

theorem Within.next {st' : Scan} (hlen : (s.length : ℤ) ≤ intMax) (h : Within P s ov st K out)
    (hret : Returns (mtobBody P s st) (.next st')) : ∃ K' out', Within P s ov st' K' out' := by
  obtain ⟨hscan, ⟨es, hlex⟩, hopen, hlegal, hright⟩ := h
  have hi := (mtobBody_next hret).1
  generalize htxt : s.drop st.scandIndex = txt at hlex hopen
  cases hlex with
  | nil => exact absurd htxt (drop_ne_nil hi.lt_length)
  | @blank cs es hrest =>
    obtain ⟨st₁, hret₁, hs₁, hidx⟩ := hscan.blank (P := P) hi htxt
    cases hret.unique hret₁
    have hdrop := drop_succ_of_cons htxt
    refine ⟨K, out, hs₁, ⟨es, by rwa [hidx, hdrop]⟩, ?_, hlegal, hright⟩
    rw [hidx, hdrop]
    intro pre hpre
    simpa using hopen (' ' :: pre) (List.prefix_cons_inj _ |>.mpr hpre)
  | @op c cs es hc hrest =>
    -- a `)` finds its `(`, as no more are closed than are open
    obtain ⟨em, K', hyard, hopen', hsub, hright'⟩ := yardOp_balanced (P := P) hc hopen
    obtain ⟨st₁, hret₁, hs₁, hidx⟩ := hscan.op hi htxt hc hyard
    cases hret.unique hret₁
    have hdrop := drop_succ_of_cons htxt
    refine ⟨K', _, hs₁, ⟨es, by rwa [hidx, hdrop]⟩, by rwa [hidx, hdrop], fun q hq => ?_,
      hright' hright⟩
    rcases List.mem_cons.mp (hsub hq) with rfl | hq
    · exact hc
    · exact hlegal q hq
  | @num ds cs es hne hds hcs hrest =>
    have hnum := lexeme_digits (P := P) hne hds hcs
    rw [← htxt] at hnum
    have hle := (num_le_length hi.lt_length hnum).2
    have hroom := hscan.num_room hnum (by rw [scanLen_of_le hlen]; exact hle)
    obtain ⟨st₁, hret₁, hs₁, hidx⟩ := hscan.num hi hnum (by omega) hroom
    cases hret.unique hret₁
    have hdrop := drop_add_of_append htxt
    exact ⟨K, _, hs₁, ⟨es, by rwa [hidx, hdrop]⟩, by
      rw [hidx, hdrop]; exact count_append_digits hds hopen, hlegal, hright⟩

/-! ### The stack and the buffer -/

/-- The stack has cells 0 to `strlen(s)`, the buffer `(strlen(s)+1)*2` characters, and both are
entered inside. -/
structure InBounds (s : List Char) (st : Scan) : Prop where
  stack : st.g.stack.length = s.length + 1
  it_ge : -1 ≤ st.g.it.val
  it_le : st.g.it.val ≤ s.length
  bstr : st.bstr.length = (s.length + 1) * 2
  bi : st.bi < (s.length + 1) * 2

theorem Within.inBounds (hlen : (s.length : ℤ) ≤ intMax) (h : Within P s ov st K out) :
    InBounds s st := by
  have hrep := h.scanning.rep
  have hcost := h.scanning.cost
  have hbound := h.scanning.bound
  have hcap := hrep.le_cap
  have hit : st.g.it.val = K.length - 1 := by simpa using hrep.holds.it_eq
  have hscan := scanLen_of_le hlen
  rw [hscan] at hcap
  refine ⟨hscan ▸ hrep.size, by omega, by omega, ?_, ?_⟩
  · rw [hrep.bstr, hscan, length_buffer hcap]
  · rw [hrep.bi]
    omega

/-! ### The calls of `prio` -/

/-- `mtob(s)` calls `prio` on this character: in the loop that an operator runs on what is on the
stack. -/
inductive CallsPrio (P : Platform) (s : List Char) (g : Globals) : Char → Prop
  | mk {k j : ℕ} {st₀ st st' : Scan} {c : Char} {e : NumOp} {q : Char} :
      mtobStart s g = .ok st₀ → Iterates (mtobBody P s) k st₀ st → s[st.scandIndex]? = some c →
      isLegalOp c = true → isEmpty st.g = false → c ≠ '(' → c ≠ ')' →
      Iterates (reduceBody P c) j { st with scandIndex := st.scandIndex + 1 } st' →
      stackAt st'.g (stackTop st'.g) = .ok e → q = c ∨ q = firstChar e.numOp →
      CallsPrio P s g q

theorem Rep.reduceBody_next {n : ℕ} {c : Char} {st' : Scan} (h : Rep n ov st K out)
    (hroom : out.length + 2 * K.length ≤ (n + 1) * 2)
    (hret : Returns (reduceBody P c st) (.next st')) :
    ∃ K' out', Rep n ov st' K' out' ∧ out'.length + 2 * K'.length ≤ (n + 1) * 2 ∧ K' ⊆ K := by
  cases K with
  | nil =>
    have hfault : Faults (reduceBody P c st) (.stackIndex (-1)) :=
      Faults.bind (faults_lift h.holds.top_nil)
    exact absurd hfault hret.not_faults
  | cons q K =>
    rw [List.length_cons] at hroom
    by_cases hle : prio P c ≤ prio P q
    · obtain ⟨st₁, hst₁, hrep, -⟩ := h.emitOp (by omega)
      rw [reduceBody_emit h hle hst₁] at hret
      have heq := of_returns_pure hret
      split at heq
      · cases heq
      · cases heq
        exact ⟨K, _, hrep, by simpa using by omega, List.subset_cons_self q K⟩
    · rw [reduceBody_exit h hle] at hret
      cases of_returns_pure hret

theorem Within.prio_arith_or_left {c q : Char} {j : ℕ} {st' : Scan} {e : NumOp}
    (h : Within P s ov st K out) (hi : st.scandIndex ≤ scanLen s) (hc : isLegalOp c = true)
    (hleft : c ≠ '(') (hright : c ≠ ')')
    (hreduce : Iterates (reduceBody P c) j { st with scandIndex := st.scandIndex + 1 } st')
    (he : stackAt st'.g (stackTop st'.g) = .ok e) (hq : q = c ∨ q = firstChar e.numOp) :
    IsArith q ∨ q = '(' := by
  rcases hq with rfl | rfl
  · rcases isLegalOp_cases hc with harith | h0 | h0
    · exact .inl harith
    · exact absurd h0 hleft
    · exact absurd h0 hright
  · -- the loop only takes off the stack, so what it asks for was there when it began
    have hcost := h.scanning.cost
    obtain ⟨K', out', hrep, -, hsub⟩ := hreduce.keeps
      (I := fun st => ∃ K' out', Rep (scanLen s) ov st K' out' ∧
        out'.length + 2 * K'.length ≤ (scanLen s + 1) * 2 ∧ K' ⊆ K)
      (fun _ _ hI hret => by
        obtain ⟨K₁, out₁, hrep, hroom, hsub⟩ := hI
        obtain ⟨K₂, out₂, hrep', hroom', hsub'⟩ := hrep.reduceBody_next hroom hret
        exact ⟨K₂, out₂, hrep', hroom', List.Subset.trans hsub' hsub⟩)
      ⟨K, out, h.scanning.rep.setIndex _, by omega, List.Subset.refl K⟩
    cases K' with
    | nil => rw [hrep.holds.top_nil] at he; cases he
    | cons q K' =>
      obtain ⟨e', he', hfirst⟩ := hrep.top
      cases he.symm.trans he'
      have hmem : q ∈ K := hsub (List.mem_cons_self ..)
      rw [hfirst]
      rcases isLegalOp_cases (h.legal q hmem) with harith | h0 | rfl
      · exact .inl harith
      · exact .inr h0
      · exact absurd hmem h.noRight

/-- `mtob` comes to its end without a read or write outside its stack and buffer, reports no
overflow and asks the priority of `+ - * / (` alone. -/
theorem mtob_stays_in_bounds (P : Platform) (hs : InAlphabet s) (hpar : PrefixBalanced s)
    (hlen : s.length < 1073741823) {g : Globals} (hg : g.it.val = -1) :
    (∃ buf g', Returns (mtob P s g) (some buf, g') ∧ buf.length = (s.length + 1) * 2 ∧
      '\x00' ∈ buf ∧ g'.overflows = g.overflows) ∧
    (∃ st₀, mtobStart s g = .ok st₀ ∧ ∀ k st, Iterates (mtobBody P s) k st₀ st →
      InBounds s st ∧ st.g.overflows = g.overflows) ∧
    ∀ q, CallsPrio P s g q → IsArith q ∨ q = '(' := by
  have hmax : (s.length : ℤ) ≤ intMax := by unfold intMax; omega
  have hsize := sized_of_length hlen
  obtain ⟨es, hlex⟩ := exists_lexes P hs
  obtain ⟨items, hpost⟩ := hlex.exists_postfixOf hpar
  have hscan := hlex.splits.scans hmax
  have hfit := textFits_of_le hscan.takes (scanLen_of_le hmax).ge hpost
  obtain ⟨buf, g', hret, -, hnul, -, hov, hbuf⟩ := mtob_returns hsize hscan hpost hfit hg
  obtain ⟨st₀, hst, hstart⟩ := Within.start (P := P) hs hpar hsize hg
  have hwithin : ∀ k st, Iterates (mtobBody P s) k st₀ st →
      ∃ K out, Within P s g.overflows st K out := fun k st hk =>
    hk.keeps (I := fun st => ∃ K out, Within P s g.overflows st K out)
      (fun _ _ hI hret => by obtain ⟨K, out, hwith⟩ := hI; exact hwith.next hmax hret)
      ⟨[], [], hstart⟩
  refine ⟨⟨buf, g', hret, ?_, hnul, hov⟩, ⟨st₀, hst, fun k st hk => ?_⟩, ?_⟩
  · rw [hbuf, scanLen_of_le hmax]
  · obtain ⟨K, out, hwith⟩ := hwithin k st hk
    exact ⟨hwith.inBounds hmax, hwith.scanning.rep.reports⟩
  · rintro q ⟨hst', hk, -, hc, -, hleft, hright, hreduce, he, hq⟩
    cases hst.symm.trans hst'
    obtain ⟨K, out, hwith⟩ := hwithin _ _ hk
    exact hwith.prio_arith_or_left (scanLen_of_le hmax ▸ hwith.scanning.bound) hc hleft hright
      hreduce he hq

theorem mtob_stays_in_bounds_sample :
    (∃ buf g', Returns (mtob x86 ['(', '*', '1', '-'] .initial) (some buf, g') ∧
      buf.length = 10 ∧ '\x00' ∈ buf ∧ g'.overflows = 0) ∧
    (∃ st₀, mtobStart ['(', '*', '1', '-'] .initial = .ok st₀ ∧
      ∀ k st, Iterates (mtobBody x86 ['(', '*', '1', '-']) k st₀ st →
        InBounds ['(', '*', '1', '-'] st ∧ st.g.overflows = 0) ∧
    ∀ q, CallsPrio x86 ['(', '*', '1', '-'] .initial q → IsArith q ∨ q = '(' :=
  mtob_stays_in_bounds x86 (by decide) (by decide) (by decide) rfl

/-- Behind 2^30 - 2 spaces the buffer is the null pointer. -/
theorem mtob_writes_to_null :
    InAlphabet (farOne 1073741822) ∧ PrefixBalanced (farOne 1073741822) ∧
      Globals.initial.it.val = -1 ∧
      Faults (mtob x86 (farOne 1073741822) Globals.initial) .nullPointer := by
  have hmem : ∀ c ∈ farOne 1073741822, c = ' ' ∨ c = '1' := fun c hc => by
    rcases List.mem_append.mp hc with hc | hc
    · exact .inl (List.eq_of_mem_replicate hc)
    · exact .inr (List.mem_singleton.mp hc)
  refine ⟨fun c hc => ?_, fun pre hpre => ?_, rfl, farOne_faults x86 .initial⟩
  · rcases hmem c hc with rfl | rfl
    · exact .inr (.inr rfl)
    · exact .inl (by decide)
  · have hnone : ')' ∉ pre := fun hc => by
      rcases hmem ')' (hpre.subset hc) with h0 | h0
      · exact absurd h0 (by decide)
      · exact absurd h0 (by decide)
    rw [List.count_eq_zero.mpr hnone]
    exact Nat.zero_le _

end GoodCommand.Calculator.StringStack
