import Mathlib
import DynamicLisp.Proofs.Eval.Refusal

/-! Differences, quotients and magnitudes. Main statement: a primitive that takes a fixed number of
integers to one refuses other operands, and else gives the exact result if that is in range; if not,
the fault names it. A quotient is known by its remainder; of the integers in range only the least one
has a quotient out of range, by minus one. -/
namespace DynamicLisp.Primitive

/-! ### Exact results -/

/-- The quotient truncated toward zero: it leaves a remainder that is less than the divisor in
magnitude, and zero or of the sign of the dividend. -/
def IsQuotient (a b q : Int) : Prop :=
  ∃ r, a = q * b + r ∧ |r| < |b| ∧ (r = 0 ∨ r.sign = a.sign)

/-- The number that a primitive should come to, by its operands. -/
inductive Exact : Primitive → List Value → Int → Prop where
  | difference (a b : Int) : Exact sub [.int a, .int b] (a - b)
  | quotient {a b q : Int} (h : IsQuotient a b q) : Exact div [.int a, .int b] q
  | magnitude (a : Int) : Exact abs [.int a] |a|

variable {p : Primitive} {fresh : Identity} {args : List Value} {a b m n q : Int} {k : Nat}

theorem isQuotient_iff : IsQuotient a b q ↔ b ≠ 0 ∧ q = a.tdiv b := by
  constructor
  · rintro ⟨r, ha, hr, hs⟩
    rw [Int.abs_eq_natAbs, Int.abs_eq_natAbs] at hr
    have hb : b ≠ 0 := by omega
    refine ⟨hb, ?_⟩
    rcases le_total 0 a with h | h
    · have hr0 : 0 ≤ r := by
        rcases hs with rfl | hs
        · exact le_refl 0
        · exact Int.sign_nonneg_iff.mp (hs ▸ Int.sign_nonneg_iff.mpr h)
      exact ((Int.tdiv_tmod_unique h hb).mpr ⟨by rw [ha]; ring, hr0, by omega⟩).1.symm
    · have hr0 : r ≤ 0 := by
        rcases hs with rfl | hs
        · exact le_refl 0
        · exact Int.sign_nonpos_iff.mp (hs ▸ Int.sign_nonpos_iff.mpr h)
      exact ((Int.tdiv_tmod_unique' h hb).mpr ⟨by rw [ha]; ring, by omega, hr0⟩).1.symm
  · rintro ⟨hb, rfl⟩
    refine ⟨a.tmod b, (Int.tdiv_mul_add_tmod a b).symm, ?_, ?_⟩
    · rw [Int.abs_eq_natAbs, Int.abs_eq_natAbs, Int.natAbs_tmod]
      exact Int.ofNat_lt.mpr (Nat.mod_lt _ (Int.natAbs_pos.mpr hb))
    · by_cases hd : b ∣ a
      · exact .inl (Int.dvd_iff_tmod_eq_zero.mp hd)
      · exact .inr (by rw [Int.sign_tmod, if_neg hd])

/-- The quotient is that of the magnitudes, with a minus sign if just one operand is negative. -/
theorem tdiv_eq_ite (a b : Int) :
    a.tdiv b = if a < 0 ↔ b < 0 then |a| / |b| else -(|a| / |b|) := by
  rcases lt_or_ge a 0 with ha | ha
  · rw [abs_of_neg ha]
    rcases lt_or_ge b 0 with hb | hb
    · rw [if_pos (iff_of_true ha hb), abs_of_neg hb, ← Int.tdiv_eq_ediv_of_nonneg (by omega),
        Int.neg_tdiv_neg]
    · rw [if_neg (fun h => hb.not_gt (h.mp ha)), abs_of_nonneg hb,
        ← Int.tdiv_eq_ediv_of_nonneg (by omega), Int.neg_tdiv, Int.neg_neg]
  · rw [abs_of_nonneg ha, ← Int.tdiv_eq_ediv_of_nonneg ha]
    rcases lt_or_ge b 0 with hb | hb
    · rw [if_neg (fun h => ha.not_gt (h.mpr hb)), abs_of_neg hb, Int.tdiv_neg, Int.neg_neg]
    · rw [if_pos (iff_of_false ha.not_gt hb.not_gt), abs_of_nonneg hb]

theorem IsQuotient.natAbs_le (h : IsQuotient a b q) : q.natAbs ≤ a.natAbs := by
  obtain ⟨_, rfl⟩ := isQuotient_iff.mp h
  exact Int.natAbs_tdiv_le_natAbs a b

theorem Exact.unique (hm : p.Exact args m) (hn : p.Exact args n) : m = n := by
  cases hm with
  | difference | magnitude =>
    cases hn
    rfl
  | quotient hm =>
    cases hn with
    | quotient hn => rw [(isQuotient_iff.mp hm).2, (isQuotient_iff.mp hn).2]

/-- A primitive comes to the exact result, which is then checked. -/
theorem compute_of_exact (h : p.Exact args n) : p.compute fresh args = integer n := by
  cases h with
  | difference a b => rfl
  | @quotient a b q h =>
    obtain ⟨hb, rfl⟩ := isQuotient_iff.mp h
    show (Except.mapError Halt.fault (Primitive.quotient [.int a, .int b])).bind _ = _
    rw [quotient_ints hb]
    rfl
  | magnitude a =>
    rw [Int.abs_eq_natAbs]
    rfl

/-! ### Operands -/

/-- How many integers a primitive takes to one, if it takes a fixed number of them. -/
def takes? : Primitive → Option Nat
  | sub | div => some 2
  | abs => some 1
  | _ => none

/-- How a primitive that takes `k` integers to one ends: for the count of its operands, for their
kind, for the divisor, or with the exact result if that is in range. -/
inductive Outcome (p : Primitive) (k : Nat) (args : List Value) : Except Halt Value → Prop where
  | count (op : String) (h : args.length ≠ k) :
      Outcome p k args (.error (.fault (.operandCount op args.length)))
  | kind (h : args.length = k) (hv : ∃ v ∈ args, v.isInteger = false) :
      Outcome p k args (.error (.fault .notInteger))
  | divisor {a : Int} (hp : p = div) (h : args = [.int a, .int 0]) :
      Outcome p k args (.error (.fault .divisionByZero))
  | result {n : Int} (h : p.Exact args n) (hn : Value.inRange n) : Outcome p k args (.ok (.int n))
  | excess {n : Int} (h : p.Exact args n) (hn : ¬ Value.inRange n) :
      Outcome p k args (.error (.fault (.overflow n)))

/-- An exact result has at most one digit more than the operands. -/
theorem Exact.natAbs_lt {d : Nat} (h : p.Exact args n)
    (hargs : ∀ n, .int n ∈ args → n.natAbs < 10 ^ d) : n.natAbs < 10 ^ (d + 1) := by
  rw [Nat.pow_succ]
  cases h with
  | difference a b =>
    have ha := hargs a (.head _)
    have hb := hargs b (.tail _ (.head _))
    omega
  | @quotient a b q h =>
    have ha := hargs a (.head _)
    have hq := h.natAbs_le
    omega
  | magnitude a =>
    have ha := hargs a (.head _)
    rw [Int.abs_eq_natAbs]
    omega

variable (hargs : ∀ n, .int n ∈ args → n.natAbs < 10 ^ 4299)

include hargs in
private theorem outcome_of_exact (h : p.Exact args n) :
    Outcome p k args (p.compute fresh args) := by
  have hw : Text.isWritable n :=
    Value.isWritable_of_natAbs_lt_pow (h.natAbs_lt hargs) (by decide)
  rw [compute_of_exact h]
  by_cases hn : Value.inRange n
  · rw [integer_of_inRange hn]
    exact .result h hn
  · rw [integer_of_not_inRange hn hw]
    exact .excess h hn

private theorem exists_int_or_asInt (v : Value) :
    (∃ n, v = .int n) ∨ v.isInteger = false ∧ v.asInt = .error .notInteger := by
  cases v with
  | int n => exact .inl ⟨n, rfl⟩
  | _ => exact .inr ⟨rfl, rfl⟩

/-- Two operands are refused for their count or for their kind, or they are integers. -/
private theorem outcome_of_twoIntegers {r : Except Halt Value} (op : String)
    (hrefused : ∀ f, twoIntegers op args = .error f → r = .error (.fault f))
    (hints : ∀ a b, args = [.int a, .int b] → Outcome p 2 args r) : Outcome p 2 args r := by
  by_cases h : args.length = 2
  · obtain ⟨v, w, rfl⟩ := List.length_eq_two.mp h
    rcases exists_int_or_asInt v with ⟨a, rfl⟩ | ⟨hv, hi⟩
    · rcases exists_int_or_asInt w with ⟨b, rfl⟩ | ⟨hw, hi⟩
      · exact hints a b rfl
      · rw [hrefused .notInteger (by rw [twoIntegers, hi]; rfl)]
        exact .kind h ⟨w, .tail _ (.head _), hw⟩
    · rw [hrefused .notInteger (by rw [twoIntegers, hi]; rfl)]
      exact .kind h ⟨v, .head _, hv⟩
  · have hf : twoIntegers op args = .error (.operandCount op args.length) := by
      unfold twoIntegers
      split
      · exact absurd rfl h
      · rfl
    rw [hrefused _ hf]
    exact .count op h

include hargs

private theorem outcome_sub : Outcome sub 2 args (sub.compute fresh args) := by
  refine outcome_of_twoIntegers "subtract" (fun f hf => ?_) fun a b hab => ?_
  · rw [compute, hf]
    rfl
  · subst hab
    exact outcome_of_exact hargs (.difference a b)

private theorem outcome_div : Outcome div 2 args (div.compute fresh args) := by
  refine outcome_of_twoIntegers "divide" (fun f hf => ?_) fun a b hab => ?_
  · rw [compute, quotient, hf]
    rfl
  · subst hab
    by_cases hb : b = 0
    · subst hb
      exact .divisor rfl rfl
    · exact outcome_of_exact hargs (.quotient (isQuotient_iff.mpr ⟨hb, rfl⟩))

private theorem outcome_abs : Outcome abs 1 args (abs.compute fresh args) := by
  by_cases h : args.length = 1
  · obtain ⟨v, rfl⟩ := List.length_eq_one_iff.mp h
    rcases exists_int_or_asInt v with ⟨a, rfl⟩ | ⟨hv, hi⟩
    · exact outcome_of_exact hargs (.magnitude a)
    · have hf : abs.compute fresh [v] = .error (.fault .notInteger) := by
        rw [compute, oneOperand, Except.bind, hi]
        rfl
      rw [hf]
      exact .kind h ⟨v, .head _, hv⟩
  · have hf : oneOperand "abs" args = .error (.operandCount "abs" args.length) := by
      unfold oneOperand
      split
      · exact absurd rfl h
      · rfl
    have hc : abs.compute fresh args = .error (.fault (.operandCount "abs" args.length)) := by
      rw [compute, hf]
      rfl
    rw [hc]
    exact .count "abs" h

theorem outcome_compute (hp : p.takes? = some k) :
    Outcome p k args (p.compute fresh args) := by
  cases p with
  | sub =>
    cases hp
    exact outcome_sub hargs
  | div =>
    cases hp
    exact outcome_div hargs
  | abs =>
    cases hp
    exact outcome_abs hargs
  | _ => cases hp

omit hargs

/-! ### What each outcome tells -/

/-- Whether a computation is refused for a fault of a kind. -/
def Faults (r : Except Halt Value) (kind : Fault.Kind) : Prop :=
  ∃ f : Fault, r = .error (.fault f) ∧ f.kind = kind

@[simp]
theorem faults_error {f : Fault} {kind : Fault.Kind} :
    Faults (.error (.fault f)) kind ↔ f.kind = kind := by
  constructor
  · rintro ⟨_, ⟨⟩, hk⟩
    exact hk
  · exact fun hk => ⟨f, rfl, hk⟩

@[simp]
theorem not_faults_ok {v : Value} {kind : Fault.Kind} : ¬ Faults (.ok v) kind := by
  rintro ⟨_, ⟨⟩, _⟩

/-- A division by zero. -/
def DividesByZero (p : Primitive) (args : List Value) : Prop :=
  p = div ∧ ∃ a, args = [.int a, .int 0]

/-- What a primitive that takes `k` integers to one is refused for, and what it gives. The number of
operands is looked at first, then whether they are integers, then the divisor. -/
structure Settled (p : Primitive) (k : Nat) (args : List Value) (r : Except Halt Value) : Prop where
  count : Faults r .invalidArgumentCount ↔ args.length ≠ k
  kind : Faults r .notAnInteger ↔ args.length = k ∧ ∃ v ∈ args, v.isInteger = false
  divisor : Faults r .divisionByZero ↔ p.DividesByZero args
  result : args.length = k → (∀ v ∈ args, v.isInteger) → ¬ p.DividesByZero args →
    ∃ n, (∀ m, p.Exact args m ↔ m = n) ∧
      (r = .ok (.int n) ↔ -2147483648 ≤ n ∧ n ≤ 2147483647) ∧
      (r = .error (.fault (.overflow n)) ↔ ¬ (-2147483648 ≤ n ∧ n ≤ 2147483647))

/-- So many operands, all of them integers. -/
def Fits (k : Nat) (args : List Value) : Prop :=
  args.length = k ∧ ∀ v ∈ args, v.isInteger

theorem Fits.not_exists (h : Fits k args) : ¬ ∃ v ∈ args, v.isInteger = false := by
  rintro ⟨v, hv, hi⟩
  rw [h.2 v hv] at hi
  cases hi

private theorem fits_one (a : Int) : Fits 1 [.int a] :=
  ⟨rfl, List.forall_mem_singleton.mpr rfl⟩

private theorem fits_two (a b : Int) : Fits 2 [.int a, .int b] :=
  ⟨rfl, List.forall_mem_cons.mpr ⟨rfl, List.forall_mem_singleton.mpr rfl⟩⟩

theorem DividesByZero.fits (hp : p.takes? = some k) (h : p.DividesByZero args) : Fits k args := by
  obtain ⟨rfl, a, rfl⟩ := h
  cases hp
  exact fits_two a 0

theorem Exact.fits (hp : p.takes? = some k) (h : p.Exact args n) : Fits k args := by
  cases h with
  | difference a b =>
    cases hp
    exact fits_two a b
  | @quotient a b q h =>
    cases hp
    exact fits_two a b
  | magnitude a =>
    cases hp
    exact fits_one a

/-- There is no quotient by zero. -/
theorem Exact.not_dividesByZero (h : p.Exact args n) : ¬ p.DividesByZero args := by
  rintro ⟨rfl, a, rfl⟩
  cases h with
  | quotient h => exact (isQuotient_iff.mp h).1 rfl

/-- The outcome is settled by the operands, since no two outcomes have operands in common. -/
theorem Outcome.settled {r : Except Halt Value} (hp : p.takes? = some k) (h : Outcome p k args r) :
    Settled p k args r := by
  have hexact : ∀ {n}, p.Exact args n → ∀ m, p.Exact args m ↔ m = n := fun hn m =>
    ⟨fun hm => hm.unique hn, fun hm => hm ▸ hn⟩
  cases h with
  | count op h =>
    exact
      { count := iff_of_true (faults_error.mpr rfl) h
        kind := iff_of_false (by simp [Fault.kind]) fun hk => h hk.1
        divisor := iff_of_false (by simp [Fault.kind]) fun hd => h (hd.fits hp).1
        result := fun hk => absurd hk h }
  | kind h hv =>
    exact
      { count := iff_of_false (by simp [Fault.kind]) (not_not_intro h)
        kind := iff_of_true (faults_error.mpr rfl) ⟨h, hv⟩
        divisor := iff_of_false (by simp [Fault.kind]) fun hd => (hd.fits hp).not_exists hv
        result := fun hk hall => absurd hv (Fits.not_exists ⟨hk, hall⟩) }
  | @divisor a hd h =>
    have hzero : p.DividesByZero args := ⟨hd, a, h⟩
    have hfits := hzero.fits hp
    exact
      { count := iff_of_false (by simp [Fault.kind]) (not_not_intro hfits.1)
        kind := iff_of_false (by simp [Fault.kind]) fun hk => hfits.not_exists hk.2
        divisor := iff_of_true (faults_error.mpr rfl) hzero
        result := fun _ _ hn => absurd hzero hn }
  | @result n h hn =>
    have hfits := h.fits hp
    have hrange := Value.inRange_iff.mp hn
    exact
      { count := iff_of_false not_faults_ok (not_not_intro hfits.1)
        kind := iff_of_false not_faults_ok fun hk => hfits.not_exists hk.2
        divisor := iff_of_false not_faults_ok h.not_dividesByZero
        result := fun _ _ _ => ⟨n, hexact h, iff_of_true rfl hrange,
          iff_of_false (fun he => nomatch he) (not_not_intro hrange)⟩ }
  | @excess n h hn =>
    have hfits := h.fits hp
    have hrange := mt Value.inRange_iff.mpr hn
    exact
      { count := iff_of_false (by simp [Fault.kind]) (not_not_intro hfits.1)
        kind := iff_of_false (by simp [Fault.kind]) fun hk => hfits.not_exists hk.2
        divisor := iff_of_false (by simp [Fault.kind]) h.not_dividesByZero
        result := fun _ _ _ => ⟨n, hexact h, iff_of_false (fun he => nomatch he) hrange,
          iff_of_true rfl hrange⟩ }

/-! ### Operands in range -/

theorem IsQuotient.excess_iff (h : IsQuotient a b q) (ha : Value.inRange a) :
    ¬ Value.inRange q ↔ a = -2147483648 ∧ b = -1 := by
  have hq := h.natAbs_le
  obtain ⟨r, hr, hlt, -⟩ := h
  rw [Int.abs_eq_natAbs, Int.abs_eq_natAbs] at hlt
  rw [Value.inRange_iff] at ha ⊢
  constructor
  · intro hn
    -- a quotient is no greater in magnitude than the dividend
    obtain rfl : q = 2147483648 := by omega
    omega
  · rintro ⟨rfl, rfl⟩
    omega

theorem faults_overflow_iff (h : p.Exact args n) (hw : Text.isWritable n) :
    Faults (p.compute fresh args) .integerOverflow ↔ ¬ Value.inRange n := by
  rw [compute_of_exact h]
  by_cases hn : Value.inRange n
  · rw [integer_of_inRange hn]
    exact iff_of_false not_faults_ok (not_not_intro hn)
  · rw [integer_of_not_inRange hn hw]
    exact iff_of_true (faults_error.mpr rfl) hn

private theorem isWritable_of_natAbs_le (h : n.natAbs ≤ a.natAbs) (ha : Value.inRange a) :
    Text.isWritable n := by
  have hle := Value.natAbs_le_of_inRange ha
  exact Value.isWritable_of_natAbs_lt (by omega)

theorem div_overflow_iff (ha : Value.inRange a) :
    Faults (div.compute fresh [.int a, .int b]) .integerOverflow ↔ a = -2147483648 ∧ b = -1 := by
  by_cases hb : b = 0
  · subst hb
    have hz : div.compute fresh [.int a, .int 0] = .error (.fault .divisionByZero) := rfl
    rw [hz, faults_error]
    exact iff_of_false (fun h => nomatch h) fun h => nomatch h.2
  · have hq : IsQuotient a b (a.tdiv b) := isQuotient_iff.mpr ⟨hb, rfl⟩
    rw [faults_overflow_iff (.quotient hq) (isWritable_of_natAbs_le hq.natAbs_le ha),
      hq.excess_iff ha]

theorem abs_overflow_iff (ha : Value.inRange a) :
    Faults (abs.compute fresh [.int a]) .integerOverflow ↔ a = -2147483648 := by
  have hle : |a|.natAbs ≤ a.natAbs := (Int.natAbs_abs a).le
  rw [faults_overflow_iff (.magnitude a) (isWritable_of_natAbs_le hle ha), Int.abs_eq_natAbs]
  rw [Value.inRange_iff] at ha ⊢
  omega

/-- Arithmetic on a fixed number of operands is exact or refused. Unless an integer among them has
4300 digits or more, a difference, a quotient or a magnitude is refused for the number of its
operands, then for one that is no integer, then for a divisor that is zero; else there is one exact
result, which is given if it is in range, and named in a fault if it is not. A quotient is that of
the magnitudes, with a minus sign if just one operand is negative. Of operands in range the least
has no quotient by minus one and no magnitude, and no others are refused so. -/
theorem exact_or_refused (fresh : Identity) :
    (∀ p k args, p.takes? = some k → (∀ n, .int n ∈ args → n.natAbs < 10 ^ 4299) →
      Settled p k args (p.compute fresh args)) ∧
    (∀ a b q, IsQuotient a b q ↔
      b ≠ 0 ∧ q = if a < 0 ↔ b < 0 then |a| / |b| else -(|a| / |b|)) ∧
    (∀ a b, -2147483648 ≤ a ∧ a ≤ 2147483647 → -2147483648 ≤ b ∧ b ≤ 2147483647 →
      (Faults (div.compute fresh [.int a, .int b]) .integerOverflow ↔
        a = -2147483648 ∧ b = -1)) ∧
    ∀ a, -2147483648 ≤ a ∧ a ≤ 2147483647 →
      (Faults (abs.compute fresh [.int a]) .integerOverflow ↔ a = -2147483648) := by
  refine ⟨fun p k args hp hargs => (outcome_compute hargs hp).settled hp, ?_, ?_, ?_⟩
  · exact fun a b q => tdiv_eq_ite a b ▸ isQuotient_iff
  · exact fun a b ha _ => div_overflow_iff (Value.inRange_iff.mpr ha)
  · exact fun a ha => abs_overflow_iff (Value.inRange_iff.mpr ha)

/-! A negative number is divided with a remainder, the least integer in range is not divided by minus
one, and a truth value has no magnitude. -/

theorem exact_or_refused_negative :
    div.takes? = some 2 ∧ IsQuotient (-7) 2 (-3) ∧
      div.compute 0 [.int (-7), .int 2] = .ok (.int (-3)) ∧
      Faults (div.compute 0 [.int (-2147483648), .int (-1)]) .integerOverflow ∧
      Faults (abs.compute 0 [.bool true]) .notAnInteger := by
  have hq : IsQuotient (-7) 2 (-3) := ⟨-1, by decide⟩
  have hargs : ∀ n, .int n ∈ [Value.int (-7), .int 2] → n.natAbs < 10 ^ 4299 := by
    have hp : ∀ k, 1 ≤ k → 7 < 10 ^ k := fun k hk =>
      Nat.lt_of_lt_of_le (by decide) (Nat.pow_le_pow_right (by decide) hk)
    intro n hn
    have hle : n.natAbs ≤ 7 := by
      rcases List.mem_cons.mp hn with h | h
      · cases h
        decide
      · cases List.mem_singleton.mp h
        decide
    exact hle.trans_lt (hp 4299 (by decide))
  obtain ⟨hsettled, _, hdiv, _⟩ := exact_or_refused 0
  obtain ⟨n, hn, hresult, _⟩ := (hsettled div 2 [.int (-7), .int 2] rfl hargs).result rfl
    (by simp [Value.isInteger]) (by rintro ⟨_, a, ha⟩; cases ha)
  obtain rfl := (hn (-3)).mp (.quotient hq)
  have hbool := (hsettled abs 1 [.bool true] rfl
    fun n hn => nomatch List.mem_singleton.mp hn).kind.mpr ⟨rfl, .bool true, .head _, rfl⟩
  exact ⟨rfl, hq, hresult.mpr (by decide), (hdiv _ _ (by decide) (by decide)).mpr ⟨rfl, rfl⟩, hbool⟩

end DynamicLisp.Primitive
