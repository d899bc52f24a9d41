import McpLocator.Lib.Gregorian
import McpLocator.Lib.Padded

namespace McpLocator.Broker

open McpLocator.Gregorian McpLocator.Padded

/-!
# Timestamps

* `civilFromDays` — days since 1970-01-01 to a date, on `i64`: a chain of divisions over eras of 400
  years that begin in March.
* `civilFromDays_eq` — it is the date that many days from the epoch.
* `rfc3339Now` — the text for what the clock says; `secondsOf` reads such a text.
* `rfc3339Now_chronological` — dates, texts and their order, up to the end of year 9999.
-/

/-! ### The algorithm -/

/-- A value of an `i64` computation; `none` stands for an overflow. -/
def i64 (n : Int) : Option Int := if -2 ^ 63 ≤ n ∧ n < 2 ^ 63 then some n else none

/-- `as u32`. -/
def asU32 (n : Int) : Nat := (n % 2 ^ 32).toNat

/-- `civil_from_days`.  `div_euclid` and `rem_euclid` round down, `/` towards zero. -/
def civilFromDays (days : Int) : Option (Int × Nat × Nat) := do
  let z ← i64 (days + 719468)
  let era := z / 146097
  let doe := z % 146097
  let yoe ← i64 ((doe - doe.tdiv 1460 + doe.tdiv 36524 - doe.tdiv 146096).tdiv 365)
  let y ← i64 (yoe + era * 400)
  let doy ← i64 (doe - (365 * yoe + yoe.tdiv 4 - yoe.tdiv 100))
  let mp ← i64 ((5 * doy + 2).tdiv 153)
  let d := asU32 (doy - (153 * mp + 2).tdiv 5 + 1)
  let m := asU32 (if mp < 10 then mp + 3 else mp - 9)
  let year ← if m ≤ 2 then i64 (y + 1) else some y
  return (year, m, d)

/-! ### Eras, centuries and leap cycles -/

/-- A year of an era, given by its century, its leap cycle and its place in that, and day `r` of it.
    Only a year with a leap day at its end has a day 365. -/
structure YearDay where
  century : Int
  cycle : Int
  year : Int
  r : Int
  century_range : 0 ≤ century ∧ century ≤ 3
  cycle_range : 0 ≤ cycle ∧ cycle ≤ 24
  year_range : 0 ≤ year ∧ year ≤ 3
  r_range : 0 ≤ r ∧ r ≤ 364 ∨ r = 365 ∧ year = 3 ∧ (cycle < 24 ∨ century = 3)

namespace YearDay

/-- The day of the era. -/
def doe (t : YearDay) : Int := 36524 * t.century + 1461 * t.cycle + 365 * t.year + t.r

/-- The year of the era. -/
def yoe (t : YearDay) : Int := 100 * t.century + 4 * t.cycle + t.year

/-- Every day of an era is a day of one of its years. -/
theorem exists_doe {doe : Int} (h : 0 ≤ doe ∧ doe < 146097) : ∃ t : YearDay, t.doe = doe := by
  unfold YearDay.doe
  by_cases hlast : doe = 146096
  · exact ⟨⟨3, 24, 3, 365, by omega, by omega, by omega, by omega⟩, hlast.symm⟩
  · by_cases hleap : doe % 36524 % 1461 = 1460
    · exact ⟨⟨doe / 36524, doe % 36524 / 1461, 3, 365, by omega, by omega, by omega, by omega⟩,
        by dsimp only; omega⟩
    · exact ⟨⟨doe / 36524, doe % 36524 / 1461, doe % 36524 % 1461 / 365, doe % 36524 % 1461 % 365,
        by omega, by omega, by omega, by omega⟩, by dsimp only; omega⟩

/-- **The chain of divisions finds the year.** -/
theorem yoe_eq (t : YearDay) :
    (t.doe - t.doe / 1460 + t.doe / 36524 - t.doe / 146096) / 365 = t.yoe := by
  obtain ⟨c, q, y, r, hc, hq, hy, hr⟩ := t
  unfold doe yoe
  dsimp only
  generalize hdoe : 36524 * c + 1461 * q + 365 * y + r = doe
  by_cases hlast : doe = 146096
  · omega
  · have hcentury : doe / 36524 = c := by omega
    have hera : doe / 146096 = 0 := by omega
    -- 1460 days are a leap cycle but for one day, so a few days of a century make one more
    have hcycle : doe / 1460 = 25 * c + q ∨ doe / 1460 = 25 * c + q + 1 ∧ 0 < r := by omega
    rw [hcentury, hera]
    rcases hcycle with hcycle | ⟨hcycle, hpos⟩
    · have hr : r ≠ 365 := by
        rintro rfl
        omega
      rw [hcycle]
      omega
    · rw [hcycle]
      omega

theorem yoe_range (t : YearDay) : 0 ≤ t.yoe ∧ t.yoe < 400 := by
  obtain ⟨c, q, y, r, hc, hq, hy, hr⟩ := t
  unfold yoe
  dsimp only
  omega

/-- The days before a year of the era. -/
theorem doe_eq (t : YearDay) : t.doe = 365 * t.yoe + t.yoe / 4 - t.yoe / 100 + t.r := by
  obtain ⟨c, q, y, r, hc, hq, hy, hr⟩ := t
  unfold doe yoe
  dsimp only
  omega

theorem r_nonneg (t : YearDay) : 0 ≤ t.r ∧ t.r ≤ 365 := by
  have := t.r_range
  omega

/-- Day 365 is the last of a February with 29 days. -/
theorem isLeap_of_r (t : YearDay) (h : t.r = 365) (era : Int) :
    isLeap (t.yoe + era * 400 + 1) = true := by
  obtain ⟨c, q, y, r, hc, hq, hy, hr⟩ := t
  rw [isLeap, decide_eq_true_eq]
  unfold yoe
  dsimp only at h ⊢
  omega

end YearDay

/-! ### Months -/

/-- The month of a day of the year, and the day of the month; February may have 29 days only if it is
    the last one of a leap year. -/
theorem day_le_of_month {doy : Int} (hdoy : 0 ≤ doy ∧ doy ≤ 365) {y : Int}
    (hleap : doy = 365 → isLeap (y + 1) = true) {k : Nat} (hk : ((5 * doy + 2) / 153 : Int) = k)
    {d : Nat} (hd : (d : Int) = doy - (153 * k + 2) / 5 + 1) :
    1 ≤ d ∧ d ≤ daysInMonth (if k < 10 then y else y + 1) (if k < 10 then k + 3 else k - 9) := by
  have hlt : k < 12 := by omega
  refine ⟨by omega, ?_⟩
  interval_cases k
  case «11» =>
    -- February
    show d ≤ daysInMonth (y + 1) 2
    rw [daysInMonth, if_pos rfl]
    by_cases h : doy = 365
    · rw [if_pos (hleap h)]
      omega
    · split <;> omega
  all_goals
    simp [daysInMonth]
    omega

/-! ### The date -/

theorem i64_eq {n : Int} (h : -2 ^ 63 ≤ n ∧ n < 2 ^ 63) : i64 n = some n := if_pos h

theorem asU32_natCast {n : Nat} (h : n < 2 ^ 32) : asU32 n = n := by
  unfold asU32
  omega

/-- 1970-01-01. -/
def epoch : Date := .newYear 1970

/-- What the chain of bindings computes from the day of the era and the day of the year: no binding
    overflows, and towards zero is down where nothing is negative. -/
theorem civilFromDays_parts {days era doe yoe doy : Int} {k d : Nat}
    (h : -2 ^ 63 ≤ days + 719468 ∧ days + 719468 < 2 ^ 63) (hera : (days + 719468) / 146097 = era)
    (hday : (days + 719468) % 146097 = doe) (hyears : 0 ≤ yoe ∧ yoe < 400)
    (hyoe : (doe - doe / 1460 + doe / 36524 - doe / 146096) / 365 = yoe)
    (hdoe : doe = 365 * yoe + yoe / 4 - yoe / 100 + doy) (hr : 0 ≤ doy ∧ doy ≤ 365)
    (hk : ((5 * doy + 2) / 153 : Int) = k) (hd : (d : Int) = doy - (153 * k + 2) / 5 + 1) :
    civilFromDays days = some (if k < 10 then yoe + era * 400 else yoe + era * 400 + 1,
      if k < 10 then k + 3 else k - 9, d) := by
  have hdown : ∀ n m : Int, 0 ≤ n → n.tdiv m = n / m := fun _ _ => Int.tdiv_eq_ediv_of_nonneg
  have hyear : (doe - doe.tdiv 1460 + doe.tdiv 36524 - doe.tdiv 146096).tdiv 365 = yoe := by
    rw [hdown doe _ (by omega), hdown doe _ (by omega), hdown doe _ (by omega),
      hdown _ _ (by omega), hyoe]
  have hdoy : doe - (365 * yoe + yoe.tdiv 4 - yoe.tdiv 100) = doy := by
    rw [hdown yoe _ hyears.1, hdown yoe _ hyears.1]
    omega
  have hmp : (5 * doy + 2).tdiv 153 = k := by rw [hdown _ _ (by omega), hk]
  have hdom : asU32 (doy - (153 * (k : Int) + 2).tdiv 5 + 1) = d := by
    rw [hdown _ _ (by omega), ← hd, asU32_natCast (by omega)]
  have hmonth : asU32 (if (k : Int) < 10 then (k : Int) + 3 else k - 9) =
      if k < 10 then k + 3 else k - 9 := by
    unfold asU32
    split <;> split <;> omega
  simp only [civilFromDays, Option.bind_eq_bind, i64_eq h, Option.bind_some, hera, hday, hyear,
    i64_eq (n := yoe) (by omega), i64_eq (n := yoe + era * 400) (by omega), hdoy,
    i64_eq (n := doy) (by omega), hmp, i64_eq (n := (k : Int)) (by omega), hdom, hmonth]
  by_cases hk10 : k < 10
  · simp [hk10]
  · have hm : k - 9 ≤ 2 := by omega
    simp [hk10, hm, i64_eq (n := yoe + era * 400 + 1) (by omega)]

/-- The number of a day of an era: the years before it make up its eras and its year of the era. -/
theorem dayNumber_era {era yoe doy : Int} {k d : Nat} (hyears : 0 ≤ yoe ∧ yoe < 400) (hk : k < 12)
    (hd : (d : Int) = doy - (153 * k + 2) / 5 + 1) :
    dayNumber (if k < 10 then yoe + era * 400 else yoe + era * 400 + 1)
      (if k < 10 then k + 3 else k - 9) d =
        146097 * era + (365 * yoe + yoe / 4 - yoe / 100 + doy) - 305 := by
  have hfour : (yoe + era * 400) / 4 = yoe / 4 + 100 * era := by omega
  have hhundred : (yoe + era * 400) / 100 = yoe / 100 + 4 * era := by omega
  have hera400 : (yoe + era * 400) / 400 = era := by omega
  rw [dayNumber_march _ hk, hfour, hhundred, hera400]
  push_cast
  omega

/-- **`civil_from_days` is the date that many days from the epoch**, for every day number that the
    first addition takes. -/
theorem civilFromDays_eq {days : Int} (h : -2 ^ 63 ≤ days + 719468 ∧ days + 719468 < 2 ^ 63) :
    ∃ date : Date, civilFromDays days = some (date.year, date.month, date.day) ∧
      epoch.DaysTo date days := by
  obtain ⟨t, ht⟩ : ∃ t : YearDay, t.doe = (days + 719468) % 146097 := YearDay.exists_doe (by omega)
  have hyoe := t.yoe_eq
  have hyears := t.yoe_range
  have hdoe := t.doe_eq
  have hr := t.r_nonneg
  have hleap := t.isLeap_of_r
  generalize t.yoe = yoe at hyoe hyears hdoe hleap
  generalize t.r = doy at hdoe hr hleap
  rw [ht] at hyoe hdoe
  obtain ⟨k, hk⟩ : ∃ k : Nat, ((5 * doy + 2) / 153 : Int) = k := ⟨((5 * doy + 2) / 153).toNat, by omega⟩
  obtain ⟨d, hd⟩ : ∃ d : Nat, (d : Int) = doy - (153 * k + 2) / 5 + 1 :=
    ⟨(doy - (153 * k + 2) / 5 + 1).toNat, by omega⟩
  have hlt : k < 12 := by omega
  have hparts := civilFromDays_parts h rfl rfl hyears hyoe hdoe hr hk hd
  generalize hera : (days + 719468) / 146097 = era at hparts
  obtain ⟨hd₁, hd₂⟩ := day_le_of_month hr (hleap · era) hk hd
  refine ⟨⟨_, _, d, by split <;> omega, by split <;> omega, hd₁, hd₂⟩, hparts, ?_⟩
  have hepoch : epoch.number = 719163 := by decide
  rw [Date.daysTo_iff, Date.number, dayNumber_era hyears hlt hd, hepoch, ← hdoe]
  omega

/-! ### The text -/

/-- `{:0w}` of an `i64`: the sign is one of the `w` characters and stands before the zeros. -/
def padInt (w : Nat) (n : Int) : List Char :=
  if n < 0 then '-' :: pad (w - 1) n.natAbs else pad w n.natAbs

/-- `rfc3339_now` for what the clock says: `duration_since(UNIX_EPOCH)` in whole seconds, `none` for a
    clock before the epoch.  There is no text if the date overflows. -/
def rfc3339Now (sinceEpoch : Option Nat) : Option String := do
  let secs := (sinceEpoch.map fun d : Nat => Int.bmod d (2 ^ 64)).getD 0
  let days := secs / 86400
  let rem := secs % 86400
  let (year, month, day) ← civilFromDays days
  let hour := rem.tdiv 3600
  let minute := (rem.tmod 3600).tdiv 60
  let second := rem.tmod 60
  return String.ofList (padInt 4 year ++ '-' :: padInt 2 month ++ '-' :: padInt 2 day ++
    'T' :: padInt 2 hour ++ ':' :: padInt 2 minute ++ ':' :: padInt 2 second ++ ['Z'])

/-- `YYYY-MM-DDThh:mm:ssZ`. -/
def layout : List (Nat × Char) := [(4, '-'), (2, '-'), (2, 'T'), (2, ':'), (2, ':'), (2, 'Z')]

/-- The second that a text of this layout names, counted from the epoch, if there is such a second. -/
def secondsOf (text : String) : Option Int :=
  match read layout text.toList with
  | some [year, month, day, hour, minute, second] =>
    if (1 ≤ month ∧ month ≤ 12) ∧ (1 ≤ day ∧ day ≤ daysInMonth year month) ∧ hour < 24 ∧ minute < 60 ∧
        second < 60 then
      some ((dayNumber year month day - epoch.number) * 86400 + hour * 3600 + minute * 60 + second)
    else none
  | _ => none

/-- The seconds from the epoch to the end of year 9999. -/
def secondsTo10000 : Nat := 86400 * 2932897

theorem daysTo_10000 : epoch.DaysTo (.newYear 10000) (secondsTo10000 / 86400 : Nat) := by
  rw [Date.daysTo_iff]
  decide

/-- The six numbers in the text for second `s`. -/
structure Fields (s : Nat) where
  date : Date
  year : Nat
  year_eq : date.year = year
  year_lt : year < 10000
  number_eq : date.number = epoch.number + (s / 86400 : Nat)

namespace Fields

variable {s t : Nat}

def toList (f : Fields s) : List Nat :=
  [f.year, f.date.month, f.date.day, s % 86400 / 3600, s % 86400 % 3600 / 60, s % 86400 % 60]

theorem fits (f : Fields s) : Fits layout f.toList := by
  have hmonth := f.date.month_le
  have hday := f.date.day_le
  have hdays : daysInMonth f.date.year f.date.month ≤ 31 := by
    unfold daysInMonth
    split
    · split <;> decide
    · split <;> decide
  have hyear := f.year_lt
  have hseconds : s % 86400 < 86400 := Nat.mod_lt _ (by decide)
  refine .cons ?_ (.cons ?_ (.cons ?_ (.cons ?_ (.cons ?_ (.cons ?_ .nil))))) <;>
    exact ⟨by decide, by dsimp only; omega⟩

theorem secondsOf_write (f : Fields s) : secondsOf (String.ofList (write layout f.toList)) = some (s : Int) := by
  have hdate : (1 ≤ f.date.month ∧ f.date.month ≤ 12) ∧
      (1 ≤ f.date.day ∧ f.date.day ≤ daysInMonth f.year f.date.month) :=
    ⟨⟨f.date.month_pos, f.date.month_le⟩, f.date.day_pos, f.year_eq ▸ f.date.day_le⟩
  have htime : s % 86400 / 3600 < 24 ∧ s % 86400 % 3600 / 60 < 60 ∧ s % 86400 % 60 < 60 := by omega
  have hnumber : dayNumber f.year f.date.month f.date.day = epoch.number + (s / 86400 : Nat) := by
    rw [← f.number_eq, Date.number, f.year_eq]
  rw [secondsOf, String.toList_ofList, read_write f.fits]
  simp only [toList]
  rw [if_pos ⟨hdate.1, hdate.2, htime⟩, hnumber, Option.some_inj]
  omega

/-- **The earlier second has the smaller fields.** -/
theorem toList_lt_iff (f : Fields s) (g : Fields t) : f.toList < g.toList ↔ s < t := by
  have hdate := Date.number_lt_iff f.date g.date
  have hsame := Date.number_injective.eq_iff (a := f.date) (b := g.date)
  have hsplit : ∀ {d e : Date}, d = e ↔ d.year = e.year ∧ d.month = e.month ∧ d.day = e.day := by
    intro d e
    cases d
    cases e
    simp
  rw [f.number_eq, g.number_eq, Date.Earlier, f.year_eq, g.year_eq] at hdate
  rw [f.number_eq, g.number_eq, hsplit, f.year_eq, g.year_eq] at hsame
  simp only [toList, List.cons_lt_cons_iff, List.lt_irrefl, and_false, or_false]
  omega

end Fields

/-- The days from the epoch up to year 10000 have years of at most four digits. -/
theorem year_range {date : Date} {n : Nat} (hdays : epoch.DaysTo date n)
    (hn : n < secondsTo10000 / 86400) : 0 ≤ date.year ∧ date.year < 10000 := by
  have hfirst : (Date.newYear 0).number < epoch.number := by decide
  have hlast := daysTo_10000
  rw [Date.daysTo_iff] at hdays hlast
  have hafter : (Date.newYear 0).Earlier date := by
    rw [← Date.number_lt_iff]
    omega
  have hbefore : date.Earlier (.newYear 10000) := by
    rw [← Date.number_lt_iff]
    omega
  have hmonth := date.month_pos
  have hday := date.day_pos
  unfold Date.Earlier at hafter hbefore
  dsimp only [Date.newYear] at hafter hbefore
  omega

theorem padInt_natCast (w n : Nat) : padInt w (n : Int) = pad w n := by
  rw [padInt, if_neg (by omega), Int.natAbs_natCast]

/-- **The text is its six fields.** -/
theorem rfc3339Now_eq {s : Nat} (h : s < secondsTo10000) :
    ∃ f : Fields s, rfc3339Now (some s) = some (String.ofList (write layout f.toList)) := by
  have hlt : s < 86400 * 2932897 := by simpa only [secondsTo10000] using h
  obtain ⟨date, hdate, hdays⟩ : ∃ date : Date, civilFromDays (s / 86400 : Nat) =
      some (date.year, date.month, date.day) ∧ epoch.DaysTo date (s / 86400 : Nat) :=
    civilFromDays_eq (by omega)
  have hyear := year_range hdays (by unfold secondsTo10000; omega)
  rw [Date.daysTo_iff] at hdays
  obtain ⟨year, hnat⟩ : ∃ year : Nat, date.year = year := ⟨date.year.toNat, by omega⟩
  refine ⟨⟨date, year, hnat, by omega, hdays⟩, ?_⟩
  have hsecs : ((some s).map fun d : Nat => Int.bmod d (2 ^ 64)).getD 0 = s := by
    rw [Option.map_some, Option.getD_some, Int.bmod_def]
    split <;> omega
  have hday : (s : Int) / 86400 = (s / 86400 : Nat) := (Int.natCast_ediv s 86400).symm
  have hrem : (s : Int) % 86400 = (s % 86400 : Nat) := (Int.natCast_emod s 86400).symm
  have hhour : ((s % 86400 : Nat) : Int).tdiv 3600 = (s % 86400 / 3600 : Nat) :=
    (Int.ofNat_tdiv (s % 86400) 3600).symm
  have hminute : (((s % 86400 : Nat) : Int).tmod 3600).tdiv 60 = (s % 86400 % 3600 / 60 : Nat) := by
    rw [Int.ofNat_tdiv, Int.ofNat_tmod]
    rfl
  have hsecond : ((s % 86400 : Nat) : Int).tmod 60 = (s % 86400 % 60 : Nat) :=
    (Int.ofNat_tmod (s % 86400) 60).symm
  unfold rfc3339Now
  simp only [hsecs]
  rw [hday, hrem, hhour, hminute, hsecond, hdate, hnat]
  simp only [Option.bind_eq_bind, Option.bind_some, Option.pure_def, padInt_natCast, Fields.toList,
    layout, write, List.append_assoc, List.cons_append]

/-- **Timestamps are the right dates.**  Every day number that does not overflow is turned into the date
    that many days from 1970-01-01; so up to the end of year 9999 the text for a second has 20
    characters, reads back as that second, and the earlier second has the smaller text. -/
theorem rfc3339Now_chronological :
    (∀ z : Int, -2 ^ 63 ≤ z + 719468 → z + 719468 < 2 ^ 63 →
      ∃ date : Date, civilFromDays z = some (date.year, date.month, date.day) ∧ epoch.DaysTo date z) ∧
    (∀ s : Nat, s < secondsTo10000 →
      ∃ text, rfc3339Now (some s) = some text ∧ text.length = 20 ∧ secondsOf text = some (s : Int)) ∧
    ∀ s t : Nat, s < secondsTo10000 → t < secondsTo10000 → ∀ a b : String,
      rfc3339Now (some s) = some a → rfc3339Now (some t) = some b → (a < b ↔ s < t) := by
  refine ⟨fun z hlow hhigh => civilFromDays_eq ⟨hlow, hhigh⟩, fun s hs => ?_, fun s t hs ht a b ha hb => ?_⟩
  · obtain ⟨f, hf⟩ := rfc3339Now_eq hs
    refine ⟨_, hf, ?_, f.secondsOf_write⟩
    rw [String.length_ofList, length_write f.fits]
    rfl
  · -- the order of strings is that of their characters
    obtain ⟨f, hf⟩ := rfc3339Now_eq hs
    obtain ⟨g, hg⟩ := rfc3339Now_eq ht
    rw [hf, Option.some_inj] at ha
    rw [hg, Option.some_inj] at hb
    rw [← ha, ← hb, String.lt_iff, String.toList_ofList, String.toList_ofList,
      write_lt_write_iff f.fits g.fits, f.toList_lt_iff g]

/-- 2024-01-01T00:00:00Z. -/
theorem rfc3339Now_chronological_2024 :
    (∃ date : Date, civilFromDays 19723 = some (date.year, date.month, date.day) ∧
      epoch.DaysTo date 19723) ∧
    ∃ text, rfc3339Now (some (19723 * 86400)) = some text ∧ text.length = 20 ∧
      secondsOf text = some ((19723 * 86400 : Nat) : Int) :=
  ⟨rfc3339Now_chronological.1 19723 (by decide) (by decide),
    rfc3339Now_chronological.2.1 (19723 * 86400) (by decide)⟩

end McpLocator.Broker
