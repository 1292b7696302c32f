import OsLabs.Lib.Calendar
import OsLabs.Fat.Util

/-! # Time stamps

`fill_time` packs the calendar fields of a time stamp into two words, and `time_to_unix_time`
unpacks them again, with nothing lost but the lowest bit of the seconds. The fields are made by
`gmtime_r`, in UTC, and read by `mktime`, in local time: a stamp survives if and only if the local
time is UTC (`stampSurvives_iff`). -/

namespace OsLabs.Fat

open Calendar

/-! ## Three numbers in a word -/

/-- A word with a number of five bits, one of `w` bits, and one in the bits above. -/
def packed (w a b c : Nat) : Nat := a + 2 ^ 5 * b + 2 ^ (5 + w) * c

section Packed

variable {k w a b c : Nat}

/-- A number that fits is stored as it is. -/
theorem toU16_eq {v : Int} (h0 : 0 ≤ v) (h1 : v < 2 ^ 16) : toU16 v = v.toNat := by
  unfold toU16
  rw [Int.emod_eq_of_lt h0 h1]

/-- Bits above the low ones are added to them. -/
theorem lor_shiftLeft (ha : a < 2 ^ k) : a ||| b <<< k = a + 2 ^ k * b := by
  rw [Nat.lor_comm, ← Nat.shiftLeft_add_eq_or_of_lt ha, Nat.shiftLeft_eq, Nat.mul_comm,
    Nat.add_comm]

/-- The upper bits come back by a shift. -/
theorem add_mul_shiftRight (ha : a < 2 ^ k) : (a + 2 ^ k * b) >>> k = b := by
  rw [Nat.shiftRight_eq_div_pow, Nat.add_mul_div_left _ _ (Nat.two_pow_pos k), Nat.div_eq_of_lt ha,
    Nat.zero_add]

/-- The lower bits come back by a mask. -/
theorem add_mul_and (ha : a < 2 ^ k) : (a + 2 ^ k * b) &&& 2 ^ k - 1 = a := by
  rw [Nat.and_two_pow_sub_one_eq_mod, Nat.add_mul_mod_self_left, Nat.mod_eq_of_lt ha]

/-- Two fields side by side fit in the bits of both. -/
theorem add_mul_lt (ha : a < 2 ^ k) (hb : b < 2 ^ w) : a + 2 ^ k * b < 2 ^ (k + w) := by
  calc a + 2 ^ k * b < 2 ^ k + 2 ^ k * b := Nat.add_lt_add_right ha _
    _ = 2 ^ k * (b + 1) := by ring
    _ ≤ 2 ^ k * 2 ^ w := Nat.mul_le_mul_left _ hb
    _ = 2 ^ (k + w) := (Nat.pow_add 2 k w).symm

/-- The two upper numbers are themselves packed. -/
theorem packed_eq_add_mul (w a b c : Nat) : packed w a b c = a + 2 ^ 5 * (b + 2 ^ w * c) := by
  unfold packed
  rw [Nat.pow_add]
  ring

/-- Masks and shifts pack numbers that fit into their fields: no later mask clips an earlier one. -/
theorem packed_eq (hw : 5 + w ≤ 16) (ha : a < 2 ^ 5) (hb : b < 2 ^ w)
    (hc : c < 2 ^ (16 - (5 + w))) :
    (((a &&& 2 ^ 5 - 1 ||| b <<< 5) % 2 ^ 16 &&& 2 ^ (5 + w) - 1) ||| c <<< (5 + w)) % 2 ^ 16 =
      packed w a b c := by
  have hlow : a + 2 ^ 5 * b < 2 ^ (5 + w) := add_mul_lt ha hb
  have hall : a + 2 ^ 5 * b + 2 ^ (5 + w) * c < 2 ^ 16 := by
    have hlt := add_mul_lt hlow hc
    rwa [Nat.add_sub_cancel' hw] at hlt
  have hword : a + 2 ^ 5 * b < 2 ^ 16 :=
    Nat.lt_of_lt_of_le hlow (Nat.pow_le_pow_right Nat.zero_lt_two hw)
  rw [Nat.and_two_pow_sub_one_eq_mod a, Nat.mod_eq_of_lt ha, lor_shiftLeft ha,
    Nat.mod_eq_of_lt hword, Nat.and_two_pow_sub_one_eq_mod, Nat.mod_eq_of_lt hlow,
    lor_shiftLeft hlow, Nat.mod_eq_of_lt hall]
  rfl

/-- The first number comes back from its five bits. -/
theorem packed_low (ha : a < 2 ^ 5) : packed w a b c &&& 2 ^ 5 - 1 = a := by
  rw [packed_eq_add_mul, add_mul_and ha]

/-- The second number comes back from its bits. -/
theorem packed_middle (ha : a < 2 ^ 5) (hb : b < 2 ^ w) :
    packed w a b c >>> 5 &&& 2 ^ w - 1 = b := by
  rw [packed_eq_add_mul, add_mul_shiftRight ha, add_mul_and hb]

/-- The third number comes back from the bits above. -/
theorem packed_high (ha : a < 2 ^ 5) (hb : b < 2 ^ w) : packed w a b c >>> (5 + w) = c :=
  add_mul_shiftRight (add_mul_lt ha hb)

end Packed

/-! ## The fields of a time stamp -/

/-- Seconds since 1970 of the first of January 1980. -/
def firstStamp : Int := 315532800

/-- Seconds since 1970 of the first of January 2108. -/
def endOfStamps : Int := 4354819200

/-- The fields of a time stamp from 1980 to 2107. -/
structure Tm.Dated (tm : Tm) : Prop where
  sec : 0 ≤ tm.sec ∧ tm.sec < 60
  min : 0 ≤ tm.min ∧ tm.min < 60
  hour : 0 ≤ tm.hour ∧ tm.hour < 24
  mday : 1 ≤ tm.mday ∧ tm.mday ≤ 31
  mon : 0 ≤ tm.mon ∧ tm.mon ≤ 11
  year : 80 ≤ tm.year ∧ tm.year ≤ 207

section Fields

variable {t : Int}

/-- `gmtime_r` in terms of the calendar. -/
theorem gmtimeR_eq (t : Int) : gmtimeR t =
    let z := t / 86400 + 719468
    let doy := dayOfYear (z % 146097)
    let mp := monthOfYear doy
    let month := if mp < 10 then mp + 3 else mp - 9
    { sec := t % 86400 % 60
      min := t % 86400 / 60 % 60
      hour := t % 86400 / 3600
      mday := doy - daysBeforeMonth mp + 1
      mon := month - 1
      year :=
        yearOfEra (z % 146097) + z / 146097 * 400 + (if month ≤ 2 then 1 else 0) - 1900 } := rfl

/-- The day of a time stamp in the calendar: day `doy` of year `yoe` of the era `era`, in month
`mp`. -/
structure OnDay (t era yoe doy mp : Int) : Prop where
  days : t / 86400 + 719468 = era * 146097 + (daysBefore yoe + doy)
  inEra : 0 ≤ daysBefore yoe + doy ∧ daysBefore yoe + doy < 146097
  year_mem : 0 ≤ yoe ∧ yoe ≤ 399
  day_mem : 0 ≤ doy ∧ doy ≤ 365
  month_mem : 0 ≤ mp ∧ mp ≤ 11
  month_eq : mp = monthOfYear doy
  fields : gmtimeR t =
    let month := if mp < 10 then mp + 3 else mp - 9
    { sec := t % 86400 % 60
      min := t % 86400 / 60 % 60
      hour := t % 86400 / 3600
      mday := doy - daysBeforeMonth mp + 1
      mon := month - 1
      year := yoe + era * 400 + (if month ≤ 2 then 1 else 0) - 1900 }

/-- Every time stamp is in some month of some year of some era. -/
theorem exists_onDay (t : Int) : ∃ era yoe doy mp, OnDay t era yoe doy mp := by
  obtain ⟨doe, hdoe⟩ : ∃ doe, (t / 86400 + 719468) % 146097 = doe := ⟨_, rfl⟩
  have h0 : 0 ≤ doe := by omega
  have h1 : doe < 146097 := by omega
  have hdays := dayOfYear_mem h0 h1
  have hsum : daysBefore (yearOfEra doe) + dayOfYear doe = doe := by
    unfold dayOfYear
    omega
  refine ⟨(t / 86400 + 719468) / 146097, yearOfEra doe, dayOfYear doe,
    monthOfYear (dayOfYear doe), ?_⟩
  constructor
  · omega
  · omega
  · exact yearOfEra_mem h0 h1
  · exact hdays
  · exact monthOfYear_mem hdays.1 hdays.2
  · rfl
  · rw [gmtimeR_eq]
    dsimp only
    rw [hdoe]

/-- `gmtime_r` of a stamp in the range gives a date that an entry can hold. -/
theorem gmtimeR_dated (h0 : firstStamp ≤ t) (h1 : t < endOfStamps) : (gmtimeR t).Dated := by
  unfold firstStamp at h0
  unfold endOfStamps at h1
  obtain ⟨era, yoe, doy, mp, hdays, hdoe, hyears, hdoy, hmonths, hmp, hfields⟩ := exists_onDay t
  have hmdays := dayOfMonth_mem doy
  rw [← hmp] at hmdays
  unfold daysBefore at hdays hdoe
  unfold monthOfYear at hmp
  rw [hfields]
  dsimp only
  have hera : era = 4 ∨ era = 5 := by omega
  -- the year begins in January, two months before the year of the calendar ends
  by_cases hlate : mp < 10
  · rw [if_pos hlate, if_neg (by omega)]
    constructor <;> dsimp only <;> omega
  · rw [if_neg hlate, if_pos (by omega)]
    constructor <;> dsimp only <;> omega

/-- The start of an even second. -/
theorem gmtimeR_even (t : Int) :
    gmtimeR (t - t % 2) = { gmtimeR t with sec := (gmtimeR t).sec / 2 * 2 } := by
  have hday : (t - t % 2) / 86400 = t / 86400 := by omega
  have hsec : (t - t % 2) % 86400 % 60 = t % 86400 % 60 / 2 * 2 := by omega
  have hmin : (t - t % 2) % 86400 / 60 % 60 = t % 86400 / 60 % 60 := by omega
  have hhour : (t - t % 2) % 86400 / 3600 = t % 86400 / 3600 := by omega
  rw [gmtimeR_eq, gmtimeR_eq, hday, hsec, hmin, hhour]

/-- The start of a day. -/
theorem gmtimeR_midnight (t : Int) :
    gmtimeR (t - t % 86400) = { gmtimeR t with sec := 0, min := 0, hour := 0 } := by
  have hday : (t - t % 86400) / 86400 = t / 86400 := by omega
  have hzero : (t - t % 86400) % 86400 = 0 := by omega
  rw [gmtimeR_eq, gmtimeR_eq, hday, hzero]
  rfl

end Fields

/-! ## There and back -/

section Convert

variable {t : Int} {mktime : Tm → Int} {offset : Int}

/-- The date word of a stamp is its day, month and year. -/
theorem fillTimeDate_eq (h : (gmtimeR t).Dated) : fillTimeDate t =
    packed 4 (gmtimeR t).mday.toNat ((gmtimeR t).mon.toNat + 1) ((gmtimeR t).year - 80).toNat := by
  have hday := h.mday
  have hmon := h.mon
  have hyear := h.year
  rw [← packed_eq (by decide) (by omega) (by omega) (by omega), fillTimeDate,
    toU16_eq (by omega) (by omega), toU16_eq (by omega) (by omega), toU16_eq (by omega) (by omega),
    show (gmtimeR t).year + 1900 - 1980 = (gmtimeR t).year - 80 by omega]
  rfl

/-- The time word of a stamp is its second halved, minute and hour. -/
theorem fillTimeTime_eq (h : (gmtimeR t).Dated) : fillTimeTime t =
    packed 6 ((gmtimeR t).sec / 2).toNat (gmtimeR t).min.toNat (gmtimeR t).hour.toNat := by
  have hsec := h.sec
  have hmin := h.min
  have hhour := h.hour
  rw [← packed_eq (by decide) (by omega) (by omega) (by omega), fillTimeTime,
    toU16_eq (by omega) (by omega), toU16_eq (by omega) (by omega), toU16_eq (by omega) (by omega)]
  rfl

/-- What `mktime` is asked for an unpacked date. -/
theorem timeToUnixTime_packed (mktime : Tm → Int) {sec min hour mday mon year : Nat}
    (hsec : sec < 32) (hmin : min < 64) (hmday : mday < 32) (hmon : mon < 12) :
    timeToUnixTime mktime (packed 4 mday (mon + 1) year) (packed 6 sec min hour) =
      mktime ⟨(sec * 2 : Nat), min, hour, mday, mon, (year + 80 : Nat)⟩ := by
  have hmon' : mon + 1 < 2 ^ 4 := by omega
  have hword : toU16 ((mon + 1 : Nat) - 1) = mon := by
    rw [toU16_eq (by omega) (by omega)]
    omega
  unfold timeToUnixTime
  rw [show (0x1f : Nat) = 2 ^ 5 - 1 from rfl, show (0x3f : Nat) = 2 ^ 6 - 1 from rfl,
    show (0xf : Nat) = 2 ^ 4 - 1 from rfl, packed_low hsec, packed_low hmday,
    packed_middle hsec hmin, packed_middle hmday hmon', show 11 = 5 + 6 from rfl,
    show 9 = 5 + 4 from rfl, packed_high hsec hmin, packed_high hmday hmon', hword]

/-- The two words of a stamp are read as the start of its even second. -/
theorem timeToUnixTime_fillTime (mktime : Tm → Int) (h0 : firstStamp ≤ t) (h1 : t < endOfStamps) :
    timeToUnixTime mktime (fillTimeDate t) (fillTimeTime t) = mktime (gmtimeR (t - t % 2)) := by
  have h := gmtimeR_dated h0 h1
  obtain ⟨hsec, hmin, hhour, hmday, hmon, hyear⟩ := gmtimeR_dated h0 h1
  rw [fillTimeDate_eq h, fillTimeTime_eq h,
    timeToUnixTime_packed mktime (by omega) (by omega) (by omega) (by omega), gmtimeR_even]
  apply congrArg mktime
  rw [Tm.mk.injEq]
  omega

/-- The date word alone is read as the start of the day. -/
theorem timeToUnixTime_fillTimeDate (mktime : Tm → Int) (h0 : firstStamp ≤ t)
    (h1 : t < endOfStamps) :
    timeToUnixTime mktime (fillTimeDate t) 0 = mktime (gmtimeR (t - t % 86400)) := by
  have h := gmtimeR_dated h0 h1
  obtain ⟨hsec, hmin, hhour, hmday, hmon, hyear⟩ := gmtimeR_dated h0 h1
  rw [fillTimeDate_eq h, show 0 = packed 6 0 0 0 from rfl,
    timeToUnixTime_packed mktime (by omega) (by omega) (by omega) (by omega), gmtimeR_midnight]
  apply congrArg mktime
  rw [Tm.mk.injEq]
  omega

/-- A stamp survives the conversion but for its odd second, and its date word is its day. -/
def StampSurvives (mktime : Tm → Int) (t : Int) : Prop :=
  timeToUnixTime mktime (fillTimeDate t) (fillTimeTime t) = t - t % 2 ∧
    timeToUnixTime mktime (fillTimeDate t) 0 = t - t % 86400

/-- **A time stamp survives the format of the file system** if and only if the local time that
`mktime` inverts is UTC. -/
theorem stampSurvives_iff (hmktime : ∀ u, mktime (gmtimeR (u + offset)) = u)
    (h0 : firstStamp ≤ t) (h1 : t < endOfStamps) : StampSurvives mktime t ↔ offset = 0 := by
  have hlocal (u : Int) : mktime (gmtimeR u) = u - offset := by
    have := hmktime (u - offset)
    rwa [Int.sub_add_cancel] at this
  unfold StampSurvives
  rw [timeToUnixTime_fillTime mktime h0 h1, timeToUnixTime_fillTimeDate mktime h0 h1, hlocal,
    hlocal]
  constructor
  · rintro ⟨heven, -⟩
    omega
  · rintro rfl
    exact ⟨Int.sub_zero _, Int.sub_zero _⟩

end Convert

/-! ## A local time -/

/-- The time stamp with the given fields in UTC. -/
def timegm (tm : Tm) : Int :=
  let year := tm.year + 1900 - (if tm.mon < 2 then 1 else 0)
  let doy := daysBeforeMonth ((tm.mon + 10) % 12) + tm.mday - 1
  let doe := daysBefore (year % 400) + doy
  (year / 400 * 146097 + doe - 719468) * 86400 + tm.hour * 3600 + tm.min * 60 + tm.sec

/-- `timegm` inverts `gmtime_r`. -/
theorem timegm_gmtimeR (t : Int) : timegm (gmtimeR t) = t := by
  obtain ⟨era, yoe, doy, mp, hdays, -, hyears, -, hmonths, -, hfields⟩ := exists_onDay t
  -- January and February belong to the year before
  obtain ⟨mon, hmon⟩ : ∃ mon : Int, mon = if mp < 10 then mp + 2 else mp - 10 := ⟨_, rfl⟩
  obtain ⟨year, hyear⟩ : ∃ year : Int, year = yoe + era * 400 := ⟨_, rfl⟩
  have hdated : gmtimeR t = ⟨t % 86400 % 60, t % 86400 / 60 % 60, t % 86400 / 3600,
      doy - daysBeforeMonth mp + 1, mon, year + (if mon < 2 then 1 else 0) - 1900⟩ := by
    rw [hfields, Tm.mk.injEq, hmon, hyear]
    refine ⟨rfl, rfl, rfl, rfl, ?_, ?_⟩
    · split <;> omega
    · split_ifs <;> omega
  have hmonth : (mon + 10) % 12 = mp := by
    rw [hmon]
    split <;> omega
  have hback : year + (if mon < 2 then 1 else 0) - 1900 + 1900 - (if mon < 2 then 1 else 0) =
      year := by omega
  rw [hdated]
  unfold timegm
  dsimp only
  rw [hmonth, hback, show year % 400 = yoe by omega, show year / 400 = era by omega]
  omega

/-- `mktime` where local time is `offset` seconds ahead of UTC. -/
def mktimeAt (offset : Int) (tm : Tm) : Int := timegm tm - offset

/-- `mktime` with the offset undoes `gmtime_r` of the shifted time. -/
theorem mktimeAt_gmtimeR (offset u : Int) : mktimeAt offset (gmtimeR (u + offset)) = u := by
  unfold mktimeAt
  rw [timegm_gmtimeR, Int.add_sub_cancel]

/-- In UTC a stamp of the range survives. -/
theorem stampSurvives_utc : StampSurvives (mktimeAt 0) 1700000001 :=
  (stampSurvives_iff (mktimeAt_gmtimeR 0) (by decide) (by decide)).mpr rfl

/-- Three hours behind UTC, a stamp comes back three hours later. -/
theorem not_forall_stampSurvives : ¬ ∀ (mktime : Tm → Int) (offset t : Int),
    (∀ u, mktime (gmtimeR (u + offset)) = u) → firstStamp ≤ t → t < endOfStamps →
    StampSurvives mktime t := by
  intro hall
  have h := hall (mktimeAt (-10800)) (-10800) 1700000000 (mktimeAt_gmtimeR _) (by decide)
    (by decide)
  exact absurd h.1 (by decide)

end OsLabs.Fat
