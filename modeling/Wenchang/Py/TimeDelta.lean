import Wenchang.Py.DateTime

/-!
# `datetime + timedelta`

Adding to a `datetime` overflows exactly past the years 1 to 9999 (`DateTime.ofLocalMicros_isSome`): each day up to
the last one has a year, a month and a day of that month (`ord2ymd_valid`).
-/

namespace Py

/-- `_MAXORDINAL`, the last day of the year 9999. -/
def maxOrdinal : Nat := 3652059

/-! ## The days of the calendar -/

/-- Of a property that only gets harder, the first index beyond those who have it does not. -/
theorem not_of_filter_range {p : Nat → Prop} [DecidablePred p] (hp : ∀ i, p (i + 1) → p i) {n : Nat}
    (h : ((List.range n).filter fun i => p i).length < n) : ¬ p ((List.range n).filter fun i => p i).length := by
  generalize hk : ((List.range n).filter fun i => p i).length = k at h ⊢
  intro hpk
  have hdown : ∀ i ≤ k, p i := fun i hi => by
    induction hi using Nat.decreasingInduction with
    | self => exact hpk
    | of_succ j _ ih => exact hp j ih
  have hall : (List.range (k + 1)).filter (fun i => p i) = List.range (k + 1) :=
    List.filter_eq_self.mpr fun i hi => decide_eq_true (hdown i (Nat.le_of_lt_succ (List.mem_range.mp hi)))
  have hle := ((List.range_sublist.mpr (Nat.succ_le_of_lt h)).filter fun i => p i).length_le
  rw [hall, List.length_range, hk] at hle
  omega

/-- December is the 335th day or later. -/
theorem daysBeforeMonth_december (year : Nat) : 334 ≤ daysBeforeMonth year 12 := by
  cases hleap : isLeap year <;> simp [daysBeforeMonth, daysInMonth, hleap, List.range, List.range.loop]

/-- The month and the day found for a day of a year are ones. -/
theorem monthDay_valid (year : Nat) {n : Nat} (hn : n < 365) :
    (1 ≤ (monthDay year n).1 ∧ (monthDay year n).1 ≤ 12) ∧
      1 ≤ (monthDay year n).2 ∧ (monthDay year n).2 ≤ daysInMonth year (monthDay year n).1 := by
  have hstep : ∀ m, daysBeforeMonth year (m + 1 + 1) ≤ n → daysBeforeMonth year (m + 1) ≤ n := fun m hm => by
    rw [daysBeforeMonth_succ] at hm
    omega
  have hsum := monthDay_eq year n
  have hpos : 0 < (monthDay year n).1 := List.length_pos_iff.mpr (List.ne_nil_of_mem (List.mem_filter.mpr
    ⟨List.mem_range.mpr (by decide : 0 < 12), decide_eq_true (Nat.zero_le n)⟩))
  have hle : (monthDay year n).1 ≤ 12 := List.length_filter_le _ _
  refine ⟨⟨hpos, hle⟩, Nat.le_add_left 1 _, ?_⟩
  rcases Nat.lt_or_ge (monthDay year n).1 12 with hlt | hge
  · have hnext := not_of_filter_range (p := fun m => daysBeforeMonth year (m + 1) ≤ n) hstep (n := 12) hlt
    change ¬ daysBeforeMonth year ((monthDay year n).1 + 1) ≤ n at hnext
    obtain ⟨m, hm⟩ := Nat.exists_eq_add_of_lt hpos
    rw [Nat.zero_add] at hm
    rw [hm] at hnext hsum ⊢
    rw [daysBeforeMonth_succ] at hnext
    omega
  · have hlast : (monthDay year n).1 = 12 := Nat.le_antisymm hle hge
    have hdays := daysBeforeMonth_december year
    rw [hlast] at hsum ⊢
    have hthirtyone : daysInMonth year 12 = 31 := rfl
    omega

/-- **Each day up to the last one is a day of the calendar.** -/
theorem ord2ymd_valid {n : Nat} (hn : n < maxOrdinal) :
    (1 ≤ (ord2ymd (n + 1)).1 ∧ (ord2ymd (n + 1)).1 ≤ 9999) ∧
      (1 ≤ (ord2ymd (n + 1)).2.1 ∧ (ord2ymd (n + 1)).2.1 ≤ 12) ∧
      1 ≤ (ord2ymd (n + 1)).2.2 ∧ (ord2ymd (n + 1)).2.2 ≤ daysInMonth (ord2ymd (n + 1)).1 (ord2ymd (n + 1)).2.1 := by
  have hmax : maxOrdinal = 3652059 := rfl
  rw [hmax] at hn
  simp only [ord2ymd, Nat.add_one_sub_one]
  split
  next hlast =>
    exact ⟨⟨by omega, by omega⟩, ⟨(by decide : 1 ≤ 12), Nat.le_refl 12⟩, (by decide : 1 ≤ 31), Nat.le_refl 31⟩
  next hyear =>
    have hday := monthDay_valid (n / 146097 * 400 + 1 + n % 146097 / 36524 * 100 +
      n % 146097 % 36524 / 1461 * 4 + n % 146097 % 36524 % 1461 / 365)
      (Nat.mod_lt (n % 146097 % 36524 % 1461) (by decide : 0 < 365))
    exact ⟨⟨by omega, by omega⟩, hday.1, hday.2⟩

/-- The days before a month's end are days of its year. -/
theorem daysBeforeMonth_add_le {year month day : Nat} (hmonth : 1 ≤ month ∧ month ≤ 12)
    (hday : day ≤ daysInMonth year month) : daysBeforeMonth year month + day ≤ if isLeap year then 366 else 365 := by
  obtain ⟨hone, htwelve⟩ := hmonth
  cases hleap : isLeap year <;> interval_cases month <;>
    simp [daysBeforeMonth, daysInMonth, hleap, List.range, List.range.loop] at hday ⊢ <;> omega

/-- No date is past the last day. -/
theorem ymd2ord_le {year month day : Nat} (hyear : 1 ≤ year ∧ year ≤ 9999) (hmonth : 1 ≤ month ∧ month ≤ 12)
    (hday : day ≤ daysInMonth year month) : ymd2ord year month day ≤ maxOrdinal := by
  have hdays := daysBeforeMonth_add_le hmonth hday
  have hmax : maxOrdinal = 3652059 := rfl
  rw [ymd2ord, daysBeforeYear, hmax]
  rcases Nat.lt_or_ge year 9999 with hlt | hge
  · have hle : daysBeforeMonth year month + day ≤ 366 := by
      split at hdays <;> omega
    omega
  · obtain rfl : year = 9999 := Nat.le_antisymm hyear.2 hge
    rw [if_neg (by decide)] at hdays
    omega

namespace DateTime

/-- A `datetime` is no later than `datetime.max`. -/
theorem localMicros_lt (d : DateTime) : d.localMicros < maxOrdinal * dayMicros := by
  obtain ⟨hyear, hmonth, ⟨hone, hday⟩, hhour, hminute, hsecond, hmicro, -⟩ := d.valid
  have hord := ymd2ord_le hyear hmonth hday
  have hpos : 1 ≤ ymd2ord d.year d.month d.day := Nat.le_trans hone (Nat.le_add_left _ _)
  have hmicros : dayMicros = 86400000000 := rfl
  have hmax : maxOrdinal = 3652059 := rfl
  rw [localMicros, hmicros, hmax]
  rw [hmax] at hord
  omega

/-- **Every local time up to `datetime.max` is a value's.** -/
theorem ofLocalMicros_isSome {micros : Int} {utcoffset : Option Int} (hpos : 0 ≤ micros)
    (hmax : micros < (maxOrdinal * dayMicros : Nat))
    (hoffset : ∀ o ∈ utcoffset, -(dayMicros : Int) < o ∧ o < dayMicros) :
    ∃ d, ofLocalMicros micros utcoffset = some d := by
  have hday : micros.toNat / dayMicros < maxOrdinal :=
    Nat.div_lt_of_lt_mul (by rw [Nat.mul_comm]; omega)
  obtain ⟨hyear, hmonth, hdays⟩ := ord2ymd_valid hday
  have hmicros : dayMicros = 86400000000 := rfl
  generalize hymd : ord2ymd (micros.toNat / dayMicros + 1) = ymd at hyear hmonth hdays
  have hvalid : Valid ymd.1 ymd.2.1 ymd.2.2 (micros.toNat % dayMicros / 3600000000)
      (micros.toNat % dayMicros / 60000000 % 60) (micros.toNat % dayMicros / 1000000 % 60)
      (micros.toNat % dayMicros % 1000000) utcoffset := by
    refine ⟨hyear, hmonth, hdays, ?_, Nat.mod_lt _ (by decide), Nat.mod_lt _ (by decide), Nat.mod_lt _ (by decide),
      hoffset⟩
    rw [hmicros]
    omega
  rw [ofLocalMicros, if_neg (Int.not_lt.mpr hpos), hymd]
  exact ⟨_, dif_pos hvalid⟩

/-- `moment + timedelta(microseconds=delta)`, or `none` where it raises `OverflowError`. -/
def plusMicros (moment : DateTime) (delta : Int) : Option DateTime :=
  ofLocalMicros (moment.localMicros + delta) moment.utcoffset

/-- **What is added is added to the instant.** -/
theorem epochMicros_plusMicros {moment later : DateTime} {delta : Int} (h : moment.plusMicros delta = some later) :
    later.epochMicros = moment.epochMicros + delta ∧ later.utcoffset = moment.utcoffset := by
  obtain ⟨hlocal, hoffset⟩ := localMicros_ofLocalMicros h
  refine ⟨?_, hoffset⟩
  unfold epochMicros
  rw [hlocal, hoffset]
  omega

/-- Where a sum overflows, every value in the same zone comes before it. -/
theorem epochMicros_lt_of_overflow {moment : DateTime} {delta : Int} (h : moment.plusMicros delta = none)
    (hpos : 0 ≤ delta) {now : DateTime} (hzone : now.utcoffset = moment.utcoffset) :
    now.epochMicros < moment.epochMicros + delta := by
  by_contra hlater
  have hnow := now.localMicros_lt
  have hoffset := moment.valid.2.2.2.2.2.2.2
  have hlater : moment.localMicros + delta ≤ (now.localMicros : Int) := by
    unfold epochMicros at hlater
    rw [hzone] at hlater
    omega
  obtain ⟨d, hd⟩ : ∃ d, ofLocalMicros (moment.localMicros + delta) moment.utcoffset = some d :=
    ofLocalMicros_isSome (by omega) (by omega) hoffset
  rw [plusMicros, hd] at h
  cases h

end DateTime

end Py
