import WireSchema.Proofs.Json.Scaled
import WireSchema.Proofs.Number.Exact
import WireSchema.Value.Equality

/-! Laws of equality. A value with nothing in it that is no number equals itself, and it does not
matter on which side a value stands. Since an integer is rounded where it is compared with a
double, two integers may equal one double without being equal: values that equal a third one are
equal exactly if they have the same integers where both have integers, and they have them as
long as these are doubles themselves. -/

namespace WireSchema

/-! ### Doubles -/

namespace Binary64

variable {x y z : Binary64}

theorem equal_iff : x.equal y ↔
    x.isNaN = false ∧ y.isNaN = false ∧ (x = y ∨ x.pattern = 0 ∧ y.pattern = 0) := by
  simp [equal, and_assoc]

theorem equal_self (hx : x.isNaN = false) : x.equal x := equal_iff.2 ⟨hx, hx, .inl rfl⟩

theorem equal_symm (h : x.equal y) : y.equal x := by
  obtain ⟨hx, hy, h⟩ := equal_iff.1 h
  exact equal_iff.2 ⟨hy, hx, h.imp Eq.symm And.symm⟩

theorem equal_comm (x y : Binary64) : x.equal y = y.equal x :=
  Bool.eq_iff_iff.2 ⟨equal_symm, equal_symm⟩

theorem equal_trans (hxy : x.equal y) (hyz : y.equal z) : x.equal z := by
  obtain ⟨hx, -, rfl | ⟨hx0, hy0⟩⟩ := equal_iff.1 hxy
  · exact hyz
  · obtain ⟨-, hz, hyz⟩ := equal_iff.1 hyz
    refine equal_iff.2 ⟨hx, hz, .inr ⟨hx0, ?_⟩⟩
    obtain rfl | ⟨-, hz0⟩ := hyz
    · exact hy0
    · exact hz0

/-- Doubles that are equal denote the same number, or none. -/
theorem rational?_eq_of_equal (h : x.equal y) : x.rational? = y.rational? := by
  obtain ⟨-, -, rfl | ⟨hx, hy⟩⟩ := equal_iff.1 h
  · rfl
  · have hzero {x : Binary64} (hx : x.pattern = 0) : x.signedUnits = 0 := by
      rw [signedUnits, hx, Format.units_small _ (Nat.two_pow_pos _)]
      split_ifs <;> rfl
    rw [rational?_eq, rational?_eq, isFinite, isFinite, hx, hy, hzero hx, hzero hy]

theorem pattern_ofInt64 (n : Int64) :
    (ofInt64 n).pattern = Format.double.ofNat n.toInt.natAbs ∧
      (ofInt64 n).negative = decide (n < 0) := by
  have hle : Format.double.ofNat n.toInt.natAbs ≤ Format.double.infinity := Format.round_le _ _ _
  rw [double_infinity] at hle
  have hlt : Format.double.ofNat n.toInt.natAbs < 2 ^ 63 := by omega
  exact ⟨pattern_ofPattern _ hlt, negative_ofPattern _ hlt⟩

theorem isNaN_ofInt64 (n : Int64) : (ofInt64 n).isNaN = false := by
  rw [isNaN, decide_eq_false_iff_not, Nat.not_lt, (pattern_ofInt64 n).1]
  exact Format.round_le _ _ _

/-- An integer up to 2 ^ 53 is a double. -/
theorem rational?_ofInt64 {n : Int64} (hn : n.toInt.natAbs ≤ 2 ^ 53) :
    (ofInt64 n).rational? = some (n.toInt : ℚ) := by
  have hexact : Format.double.ofNat n.toInt.natAbs < Format.double.infinity ∧
      Format.double.units (Format.double.ofNat n.toInt.natAbs) =
        n.toInt.natAbs * pow2 Format.double.scale := by
    obtain hlt | heq := Nat.lt_or_eq_of_le hn
    · exact ofNat_exact (Nat.mul_one _).symm hlt (Nat.zero_le _)
    · exact ofNat_exact (heq.trans (Nat.one_mul _).symm) (by decide) (by decide)
  obtain ⟨hpattern, hnegative⟩ := pattern_ofInt64 n
  rw [rational?_eq_intCast, isFinite, signedUnits, hpattern, hnegative, hexact.2]
  refine ⟨decide_eq_true hexact.1, ?_⟩
  generalize pow2 Format.double.scale = unit
  rw [Nat.cast_mul]
  split_ifs with hneg
  · rw [decide_eq_true_eq, Int64.lt_iff_toInt_lt] at hneg
    rw [Int.ofNat_natAbs_of_nonpos (Int.le_of_lt hneg), Int.neg_mul, Int.neg_neg]
  · rw [decide_eq_true_eq, Int64.lt_iff_toInt_lt] at hneg
    rw [Int.natAbs_of_nonneg (Int.not_lt.1 hneg)]

/-- So different ones do not equal each other as doubles. -/
theorem eq_of_equal_ofInt64 {m n : Int64} (hm : m.toInt.natAbs ≤ 2 ^ 53)
    (hn : n.toInt.natAbs ≤ 2 ^ 53) (h : (ofInt64 m).equal (ofInt64 n)) : m = n := by
  have hexact := rational?_eq_of_equal h
  rw [rational?_ofInt64 hm, rational?_ofInt64 hn, Option.some.injEq, Int.cast_inj] at hexact
  exact Int64.toInt_inj.1 hexact

end Binary64

/-! ### Places of a value -/

mutual

/-- Whether all that is no array and no object in a value passes a test. -/
def Value.leaves (test : Value → Bool) : Value → Bool
  | .array items => itemsLeaves test items
  | .object members => membersLeaves test members
  | v => test v

def itemsLeaves (test : Value → Bool) : List Value → Bool
  | [] => true
  | item :: more => item.leaves test && itemsLeaves test more

def membersLeaves (test : Value → Bool) {low : Option String} : Rows Value low → Bool
  | .nil => true
  | .cons _ value rest _ => value.leaves test && membersLeaves test rest

end

/-- Everything but a double that is no number. -/
def Value.notNaN : Value → Bool
  | .float x => !x.isNaN
  | _ => true

/-- Everything but an integer beyond 2 ^ 53. -/
def Value.fitsDouble : Value → Bool
  | .int n => decide (n.toInt.natAbs ≤ 2 ^ 53)
  | _ => true

mutual

/-- Wherever two values both have an integer, it is the same. -/
def Value.sameIntegers : Value → Value → Bool
  | .int m, .int n => m == n
  | .array as, .array bs => itemsSameIntegers as bs
  | .object as, .object bs => membersSameIntegers as bs
  | _, _ => true

def itemsSameIntegers : List Value → List Value → Bool
  | a :: as, b :: bs => a.sameIntegers b && itemsSameIntegers as bs
  | _, _ => true

def membersSameIntegers {low low' : Option String} : Rows Value low → Rows Value low' → Bool
  | .cons _ a as _, .cons _ b bs _ => a.sameIntegers b && membersSameIntegers as bs
  | _, _ => true

end

/-! ### The laws -/

mutual

theorem Value.equal_self : ∀ {a : Value}, a.leaves Value.notNaN → a.equal a
  | .null, _ => rfl
  | .bool b, _ => beq_self_eq_true b
  | .int n, _ => beq_self_eq_true n
  | .float _, h => Binary64.equal_self ((Bool.not_eq_true' _).mp h)
  | .string s, _ => beq_self_eq_true s
  | .array _, h => itemsEqual_self h
  | .object _, h => membersEqual_self h

theorem itemsEqual_self : ∀ {as : List Value}, itemsLeaves Value.notNaN as → itemsEqual as as
  | [], _ => rfl
  | a :: as, h => by
    rw [itemsLeaves, Bool.and_eq_true] at h
    rw [itemsEqual, Bool.and_eq_true]
    exact ⟨Value.equal_self h.1, itemsEqual_self h.2⟩

theorem membersEqual_self {low : Option String} : ∀ {as : Rows Value low},
    membersLeaves Value.notNaN as → membersEqual as as
  | .nil, _ => rfl
  | .cons key a as _, h => by
    rw [membersLeaves, Bool.and_eq_true] at h
    rw [membersEqual, Bool.and_eq_true, Bool.and_eq_true]
    exact ⟨⟨beq_self_eq_true key, Value.equal_self h.1⟩, membersEqual_self h.2⟩

end

mutual

theorem Value.equal_comm : ∀ a b : Value, a.equal b = b.equal a
  | .array as, b => by
    cases b with
    | array bs => exact itemsEqual_comm as bs
    | _ => rfl
  | .object as, b => by
    cases b with
    | object bs => exact membersEqual_comm as bs
    | _ => rfl
  | .float x, b => by
    cases b with
    | float y => exact Binary64.equal_comm x y
    | _ => rfl
  | .null, b => by cases b <;> rfl
  | .bool x, b => by
    cases b with
    | bool y => exact BEq.comm
    | _ => rfl
  | .int m, b => by
    cases b with
    | int n => exact BEq.comm
    | _ => rfl
  | .string s, b => by
    cases b with
    | string t => exact BEq.comm
    | _ => rfl

theorem itemsEqual_comm : ∀ as bs : List Value, itemsEqual as bs = itemsEqual bs as
  | [], [] => rfl
  | [], _ :: _ => rfl
  | _ :: _, [] => rfl
  | a :: as, b :: bs => by rw [itemsEqual, itemsEqual, Value.equal_comm a b, itemsEqual_comm as bs]

theorem membersEqual_comm {low low' : Option String} : ∀ (as : Rows Value low)
    (bs : Rows Value low'), membersEqual as bs = membersEqual bs as
  | .nil, .nil => rfl
  | .nil, .cons .. => rfl
  | .cons .., .nil => rfl
  | .cons k a as _, .cons l b bs _ => by
    rw [membersEqual, membersEqual, Value.equal_comm a b, membersEqual_comm as bs,
      BEq.comm (a := k)]

end

namespace Value

variable {a b c : Value} {x y : Binary64}

/-- What equals a number is a number, and equals it as a double. -/
theorem exists_float_of_equal (ha : a.float? = some x) (h : a.equal b) :
    ∃ y, b.float? = some y ∧ x.equal y := by
  cases a with
  | int m =>
    obtain rfl := Option.some.inj ha
    cases b with
    | int n =>
      obtain rfl := eq_of_beq h
      exact ⟨_, rfl, Binary64.equal_self (Binary64.isNaN_ofInt64 m)⟩
    | float y => exact ⟨y, rfl, h⟩
    | _ => cases h
  | float x =>
    obtain rfl := Option.some.inj ha
    cases b with
    | int n => exact ⟨_, rfl, Binary64.equal_symm h⟩
    | float y => exact ⟨y, rfl, h⟩
    | _ => cases h
  | _ => cases ha

/-- Numbers that are equal as doubles are equal unless they are different integers. -/
theorem equal_of_float (ha : a.float? = some x) (hb : b.float? = some y) (h : x.equal y) :
    a.equal b = a.sameIntegers b := by
  cases a with
  | int m =>
    obtain rfl := Option.some.inj ha
    cases b with
    | int n => rfl
    | float y => exact Option.some.inj hb ▸ h
    | _ => cases hb
  | float x =>
    obtain rfl := Option.some.inj ha
    cases b with
    | int n =>
      obtain rfl := Option.some.inj hb
      exact Binary64.equal_symm h
    | float y => exact Option.some.inj hb ▸ h
    | _ => cases hb
  | _ => cases ha

theorem exists_array_of_equal {as : List Value} (h : (array as).equal b) :
    ∃ bs, b = array bs ∧ itemsEqual as bs := by
  cases b with
  | array bs => exact ⟨bs, rfl, h⟩
  | _ => cases h

theorem exists_object_of_equal {as : Table Value} (h : (object as).equal b) :
    ∃ bs, b = object bs ∧ membersEqual as bs := by
  cases b with
  | object bs => exact ⟨bs, rfl, h⟩
  | _ => cases h

theorem equal_trans_number (ha : a.float? = some x) (hab : a.equal b) (hbc : b.equal c) :
    a.equal c = a.sameIntegers c := by
  obtain ⟨y, hy, hxy⟩ := exists_float_of_equal ha hab
  obtain ⟨z, hz, hyz⟩ := exists_float_of_equal hy hbc
  exact equal_of_float ha hz (Binary64.equal_trans hxy hyz)

end Value

mutual

/-- Two values that equal a third are equal exactly if they have the same integers. -/
theorem Value.equal_trans : ∀ {a b c : Value}, a.equal b → b.equal c →
    a.equal c = a.sameIntegers c
  | .int _, _, _, hab, hbc => Value.equal_trans_number rfl hab hbc
  | .float _, _, _, hab, hbc => Value.equal_trans_number rfl hab hbc
  | .array _, b, c, hab, hbc => by
    obtain ⟨bs, rfl, hab⟩ := Value.exists_array_of_equal hab
    obtain ⟨cs, rfl, hbc⟩ := Value.exists_array_of_equal hbc
    exact itemsEqual_trans hab hbc
  | .object _, b, c, hab, hbc => by
    obtain ⟨bs, rfl, hab⟩ := Value.exists_object_of_equal hab
    obtain ⟨cs, rfl, hbc⟩ := Value.exists_object_of_equal hbc
    exact membersEqual_trans hab hbc
  | .null, b, _, hab, hbc => by
    cases b with
    | null => exact hbc
    | _ => cases hab
  | .bool _, b, _, hab, hbc => by
    cases b with
    | bool _ =>
      obtain rfl := eq_of_beq hab
      exact hbc
    | _ => cases hab
  | .string _, b, _, hab, hbc => by
    cases b with
    | string _ =>
      obtain rfl := eq_of_beq hab
      exact hbc
    | _ => cases hab
termination_by structural a => a

theorem itemsEqual_trans : ∀ {as bs cs : List Value}, itemsEqual as bs → itemsEqual bs cs →
    itemsEqual as cs = itemsSameIntegers as cs
  | [], [], [], _, _ => rfl
  | a :: as, b :: bs, c :: cs, hab, hbc => by
    rw [itemsEqual, Bool.and_eq_true] at hab hbc
    rw [itemsEqual, itemsSameIntegers, Value.equal_trans hab.1 hbc.1,
      itemsEqual_trans hab.2 hbc.2]
termination_by structural as => as

theorem membersEqual_trans {low low' low'' : Option String} : ∀ {as : Rows Value low}
    {bs : Rows Value low'} {cs : Rows Value low''}, membersEqual as bs → membersEqual bs cs →
      membersEqual as cs = membersSameIntegers as cs
  | .nil, .nil, .nil, _, _ => rfl
  | .cons k a as _, .cons l b bs _, .cons m c cs _, hab, hbc => by
    rw [membersEqual, Bool.and_eq_true, Bool.and_eq_true] at hab hbc
    rw [membersEqual, membersSameIntegers, Value.equal_trans hab.1.2 hbc.1.2,
      membersEqual_trans hab.2 hbc.2, BEq.trans hab.1.1 hbc.1.1, Bool.true_and]
termination_by structural as => as

end

mutual

/-- Integers that are doubles are the same where both equal what stands between them. -/
theorem Value.sameIntegers_of_fits : ∀ {a b c : Value}, a.equal b → b.equal c →
    a.leaves Value.fitsDouble → c.leaves Value.fitsDouble → a.sameIntegers c
  | .int m, b, c, hab, hbc, hm, hc => by
    cases c with
    | int n =>
      obtain ⟨y, hy, hmy⟩ := Value.exists_float_of_equal rfl hab
      obtain ⟨z, hz, hyz⟩ := Value.exists_float_of_equal hy hbc
      obtain rfl := Option.some.inj hz
      have hsame := Binary64.eq_of_equal_ofInt64 (of_decide_eq_true hm) (of_decide_eq_true hc)
        (Binary64.equal_trans hmy hyz)
      exact beq_iff_eq.2 hsame
    | _ => rfl
  | .array _, b, c, hab, hbc, ha, hc => by
    obtain ⟨bs, rfl, hab⟩ := Value.exists_array_of_equal hab
    obtain ⟨cs, rfl, hbc⟩ := Value.exists_array_of_equal hbc
    exact itemsSameIntegers_of_fits hab hbc ha hc
  | .object _, b, c, hab, hbc, ha, hc => by
    obtain ⟨bs, rfl, hab⟩ := Value.exists_object_of_equal hab
    obtain ⟨cs, rfl, hbc⟩ := Value.exists_object_of_equal hbc
    exact membersSameIntegers_of_fits hab hbc ha hc
  | .null, _, _, _, _, _, _ => rfl
  | .bool _, _, _, _, _, _, _ => rfl
  | .float _, _, _, _, _, _, _ => rfl
  | .string _, _, _, _, _, _, _ => rfl
termination_by structural a => a

theorem itemsSameIntegers_of_fits : ∀ {as bs cs : List Value}, itemsEqual as bs →
    itemsEqual bs cs → itemsLeaves Value.fitsDouble as → itemsLeaves Value.fitsDouble cs →
      itemsSameIntegers as cs
  | [], [], [], _, _, _, _ => rfl
  | a :: as, b :: bs, c :: cs, hab, hbc, ha, hc => by
    rw [itemsEqual, Bool.and_eq_true] at hab hbc
    rw [itemsLeaves, Bool.and_eq_true] at ha hc
    rw [itemsSameIntegers, Bool.and_eq_true]
    exact ⟨Value.sameIntegers_of_fits hab.1 hbc.1 ha.1 hc.1,
      itemsSameIntegers_of_fits hab.2 hbc.2 ha.2 hc.2⟩
termination_by structural as => as

theorem membersSameIntegers_of_fits {low low' low'' : Option String} : ∀ {as : Rows Value low}
    {bs : Rows Value low'} {cs : Rows Value low''}, membersEqual as bs → membersEqual bs cs →
      membersLeaves Value.fitsDouble as → membersLeaves Value.fitsDouble cs →
        membersSameIntegers as cs
  | .nil, .nil, .nil, _, _, _, _ => rfl
  | .cons k a as _, .cons l b bs _, .cons m c cs _, hab, hbc, ha, hc => by
    rw [membersEqual, Bool.and_eq_true, Bool.and_eq_true] at hab hbc
    rw [membersLeaves, Bool.and_eq_true] at ha hc
    rw [membersSameIntegers, Bool.and_eq_true]
    exact ⟨Value.sameIntegers_of_fits hab.1.2 hbc.1.2 ha.1 hc.1,
      membersSameIntegers_of_fits hab.2 hbc.2 ha.2 hc.2⟩
termination_by structural as => as

end

namespace Value

/-- A value equals itself if nothing in it is no number, and values equal each other or neither the
other. Of three values the outer two, both equal to the one between them, are equal exactly if they
have the same integers wherever both have integers; they always do if these are up to 2 ^ 53. -/
theorem equal_laws (a b c : Value) :
    (a.leaves notNaN → a.equal a) ∧ a.equal b = b.equal a ∧
      (a.equal b → b.equal c → a.equal c = a.sameIntegers c) ∧
      (a.equal b → b.equal c → a.leaves fitsDouble → c.leaves fitsDouble → a.equal c) :=
  ⟨equal_self, equal_comm a b, equal_trans, fun hab hbc ha hc =>
    (equal_trans hab hbc).trans (sameIntegers_of_fits hab hbc ha hc)⟩

/-- What is no number does not equal itself. -/
example : ¬(float Binary64.quietNaN).equal (float Binary64.quietNaN) := by decide +kernel

/-- An array with a number in it, as an integer or as a double. -/
def boxedNumber (number : Value) : Value :=
  object (Table.ofList [("a", array [number, float ⟨0x3FF8000000000000⟩]), ("b", null)])

/-- Three equals itself as an integer and as a double, and across both. -/
theorem equal_laws_three :
    (boxedNumber (int 3)).equal (boxedNumber (int 3)) ∧
      (boxedNumber (int 3)).equal (boxedNumber (float ⟨0x4008000000000000⟩)) =
        (boxedNumber (float ⟨0x4008000000000000⟩)).equal (boxedNumber (int 3)) ∧
      (boxedNumber (int 3)).equal (boxedNumber (int 3)) =
        (boxedNumber (int 3)).sameIntegers (boxedNumber (int 3)) := by
  have hto : (boxedNumber (int 3)).equal (boxedNumber (float ⟨0x4008000000000000⟩)) := by
    decide +kernel
  have hfrom : (boxedNumber (float ⟨0x4008000000000000⟩)).equal (boxedNumber (int 3)) := by
    decide +kernel
  obtain ⟨-, hcomm, hsame, hsmall⟩ := equal_laws (boxedNumber (int 3))
    (boxedNumber (float ⟨0x4008000000000000⟩)) (boxedNumber (int 3))
  exact ⟨hsmall hto hfrom (by decide) (by decide), hcomm, hsame hto hfrom⟩

/-- Two integers that are rounded to one double equal it and not each other. -/
theorem equal_not_trans :
    ∃ a b c : Value, a.leaves notNaN ∧ b.leaves notNaN ∧ c.leaves notNaN ∧
      a.equal b ∧ b.equal c ∧ ¬a.equal c :=
  ⟨int 9007199254740993, float ⟨0x4340000000000000⟩, int 9007199254740992, by decide +kernel⟩

end Value

end WireSchema
