import TorEbpf.Encoding.TimeFmt
import TorEbpf.Strings.Scanf

/-!
# Times as text

`parse_iso_time` and `parse_rfc1123_time` on the renderings of a time.

* `parseIsoTime_`, `parseRfc1123Time` — the parsers;
* `torTimegm_tmOf` — which times `tor_timegm` gives back;
* `timesGregorian` — `tor_timegm` on every `struct tm`, and the parsers on every time.
-/

namespace TorEbpf.Encoding

open TorEbpf.Lib TorEbpf.Strings

/-- `MAX_SCANF_WIDTH`, the width of a conversion that has none. -/
def maxScanfWidth : ℕ := 9999

def rfc1123TimeLen : ℕ := 29

def weekdayNames : List (List UInt8) :=
  [[0x53, 0x75, 0x6e], [0x4d, 0x6f, 0x6e], [0x54, 0x75, 0x65], [0x57, 0x65, 0x64], [0x54, 0x68, 0x75],
    [0x46, 0x72, 0x69], [0x53, 0x61, 0x74]]

def monthNames : List (List UInt8) :=
  [[0x4a, 0x61, 0x6e], [0x46, 0x65, 0x62], [0x4d, 0x61, 0x72], [0x41, 0x70, 0x72], [0x4d, 0x61, 0x79],
    [0x4a, 0x75, 0x6e], [0x4a, 0x75, 0x6c], [0x41, 0x75, 0x67], [0x53, 0x65, 0x70], [0x4f, 0x63, 0x74],
    [0x4e, 0x6f, 0x76], [0x44, 0x65, 0x63]]

/-! ### The parsers -/

/-- `"%u-%2u-%2u%c%2u:%2u:%2u%c"`. -/
def isoPattern : List ScanItem :=
  [.u maxScanfWidth, .char 0x2d, .u 2, .char 0x2d, .u 2, .c, .u 2, .char 0x3a, .u 2, .char 0x3a, .u 2, .c]

def parseIsoTime_ (cp : List UInt8) (strict nospace : Bool) : Option ℤ :=
  match torSscanf isoPattern cp with
  | year :: month :: day :: separatorChar :: hour :: minute :: second :: extraChar =>
    if strict = true ∧ extraChar ≠ [] then none
    else if separatorChar ≠ (if nospace then 0x54 else 0x20) then none
    else if year < 1970 ∨ month < 1 ∨ 12 < month ∨ day < 1 ∨ 31 < day ∨ 23 < hour ∨ 59 < minute ∨ 60 < second ∨
        int32Max ≤ year then none
    else torTimegm ⟨(year : ℤ) - 1900, (month : ℤ) - 1, day, hour, minute, second⟩
  | _ => none

def parseIsoTime (cp : List UInt8) : Option ℤ := parseIsoTime_ cp true false

def parseIsoTimeNospace (cp : List UInt8) : Option ℤ := parseIsoTime_ cp true true

/-- `"%3s, %2u %3s %u %2u:%2u:%2u GMT"`. -/
def rfc1123Pattern : List ScanSpec :=
  .s 3 :: .item (.char 0x2c) :: .item (.char 0x20) :: .item (.u 2) :: .item (.char 0x20) :: .s 3 ::
    .item (.char 0x20) ::
    ([.u maxScanfWidth, .char 0x20, .u 2, .char 0x3a, .u 2, .char 0x3a, .u 2, .char 0x20, .char 0x47,
      .char 0x4d,
      .char 0x54] : List ScanItem).map .item

/-- `parse_rfc1123_time`; the year is checked once more in the source, where it is 1970 or later already. -/
def parseRfc1123Time (buf : List UInt8) : Option ℤ :=
  if buf.length ≠ rfc1123TimeLen then none
  else
    match torSscanfArgs rfc1123Pattern buf with
    | [.string _, .number tmMday, .string month, .number tmYear, .number tmHour, .number tmMin,
      .number tmSec] =>
      match monthNames.findIdx? (· == month) with
      | none => none
      | some m =>
        let invalidYear : Bool := (tmYear : ℤ) ≥ int32Max || tmYear < 1970
        let dpm :=
          if m = 1 ∧ invalidYear = false ∧ isLeapyear tmYear = true then 29 else daysPerMonth.getD m 0
        if invalidYear = true ∨ tmMday < 1 ∨ dpm < tmMday ∨ 23 < tmHour ∨ 59 < tmMin ∨ 60 < tmSec then none
        else torTimegm ⟨(tmYear : ℤ) - 1900, m, tmMday, tmHour, tmMin, tmSec⟩
    | _ => none

/-! ### The renderings -/

def dateOf (t : ℕ) : Date := tomorrow^[t / 86400] (newYear 1970)

def clockText (t : ℕ) : List UInt8 :=
  twoDigits (t % 86400 / 3600) ++ 0x3a :: (twoDigits (t % 3600 / 60) ++ 0x3a :: twoDigits (t % 60))

/-- A time in the format of ISO 8601, with a separator between the date and the clock. -/
def isoText (separator : UInt8) (t : ℕ) : List UInt8 :=
  decimal (dateOf t).year ++ 0x2d :: (twoDigits (dateOf t).month ++ 0x2d :: (twoDigits (dateOf t).day ++
    separator :: clockText t))

/-- A time in the format of RFC 1123; the first of January of 1970 was a Thursday. -/
def rfc1123Text (t : ℕ) : List UInt8 :=
  weekdayNames.getD ((t / 86400 + 4) % 7) [] ++ 0x2c :: 0x20 :: (twoDigits (dateOf t).day ++ 0x20 ::
    (monthNames.getD ((dateOf t).month - 1) [] ++ 0x20 :: (decimal (dateOf t).year ++ 0x20 ::
      (clockText t ++ [0x20, 0x47, 0x4d, 0x54]))))

def tmOf (t : ℕ) : Tm :=
  ⟨((dateOf t).year : ℤ) - 1900, ((dateOf t).month : ℤ) - 1, (dateOf t).day, (t % 86400 / 3600 : ℕ),
    (t % 3600 / 60 : ℕ), (t % 60 : ℕ)⟩

variable {t : ℕ}

theorem valid_dateOf (t : ℕ) : (dateOf t).Valid := valid_iterate 1970 _

theorem le_year_dateOf (t : ℕ) : 1970 ≤ (dateOf t).year := year_le_iterate 1970 _

theorem day_dateOf_le (t : ℕ) : (dateOf t).day ≤ 31 := (valid_dateOf t).day_le.trans (monthLength_le _ _)

theorem date_tmOf (t : ℕ) : (tmOf t).date = dateOf t := by
  simp [Tm.date, tmOf]

theorem seconds_tmOf (t : ℕ) : (tmOf t).seconds = t := by
  rw [Tm.seconds, date_tmOf, dateOf, daysFrom_iterate, tmOf]
  dsimp only
  omega

theorem inRange_tmOf : (tmOf t).InRange ↔ ((dateOf t).year : ℤ) < int32Max := by
  have hyear := le_year_dateOf t
  have hmonth := (valid_dateOf t).month_pos
  have hmonth' := (valid_dateOf t).month_le
  constructor
  · intro h
    have := h.year.2
    simp only [tmOf] at this
    omega
  · intro h
    constructor <;> (simp only [tmOf]; omega)

theorem dayExists_tmOf (t : ℕ) : (tmOf t).DayExists := by
  rw [Tm.DayExists, date_tmOf, tmOf]
  exact ⟨Nat.one_le_cast.mpr (valid_dateOf t).day_pos, Nat.cast_le.mpr (valid_dateOf t).day_le⟩

def LeapDay400 (d : Date) : Prop := d.month = 2 ∧ d.day = 29 ∧ d.year % 400 = 0

/-- A date of the calendar is never the 29th of February of a year like 2300. -/
theorem centuryDay_tmOf (t : ℕ) : (tmOf t).CenturyDay ↔ LeapDay400 (dateOf t) := by
  have hday := (valid_dateOf t).day_le
  have hleap : (dateOf t).year % 400 = 300 → ¬IsLeap (dateOf t).year := by
    unfold IsLeap
    omega
  unfold Tm.CenturyDay LeapDay400 tmOf
  dsimp only
  constructor
  · rintro ⟨hmon, hmday, h0 | h300⟩
    · omega
    · rw [show (dateOf t).month = 2 by omega, monthLength, if_pos rfl, if_neg (hleap (by omega))] at hday
      omega
  · omega

/-- A time that the code gives back. -/
def Parsed (t : ℕ) : Prop := ((dateOf t).year : ℤ) < int32Max ∧ ¬LeapDay400 (dateOf t)

/-- **`tor_timegm` gives a time back** unless the year is too large or the day is a leap day in a year that
400 divides. -/
theorem torTimegm_tmOf (t : ℕ) : torTimegm (tmOf t) = some (t : ℤ) ↔ Parsed t := by
  rw [Parsed, ← centuryDay_tmOf]
  by_cases h : (tmOf t).InRange
  · have hgregorian : gregorianTimegm (tmOf t) = some (t : ℤ) := by
      rw [gregorianTimegm, if_pos ⟨h, dayExists_tmOf t⟩, seconds_tmOf]
    rw [← hgregorian, torTimegm_eq_iff, ← inRange_tmOf]
    simp only [h, true_and]
  · rw [torTimegm_of_not_inRange h, ← inRange_tmOf]
    simp [h]

/-! ### Reading the renderings -/

section Scan

variable {pattern : List ScanItem} {rest : List UInt8} {n : ℕ} {separator : UInt8}

theorem torSscanf_twoDigits (hn : n < 100) (hrest : ∀ c ∈ rest.head?, isDigit c = false) :
    torSscanf (.u 2 :: pattern) (twoDigits n ++ rest) = n :: torSscanf pattern rest := by
  have hvalue := decimalValue_twoDigits hn
  have hread : torSscanf (.u 2 :: pattern) (twoDigits n ++ rest) =
      decimalValue (twoDigits n) :: torSscanf pattern rest :=
    torSscanf_digits (fun c => isDigit_of_mem_twoDigits hn) Nat.two_pos le_rfl (show 2 ≤ 19 by decide)
      (by omega) hrest
  rwa [hvalue] at hread

theorem head_of_isDigit {c : UInt8} (hc : isDigit c = false) : ∀ d ∈ (c :: rest).head?, isDigit d = false := by
  rintro _ ⟨⟩
  exact hc

theorem torSscanf_clockText (hrest : ∀ c ∈ rest.head?, isDigit c = false) :
    torSscanf (.u 2 :: .char 0x3a :: .u 2 :: .char 0x3a :: .u 2 :: pattern) (clockText t ++ rest) =
      t % 86400 / 3600 :: t % 3600 / 60 :: t % 60 :: torSscanf pattern rest := by
  rw [clockText, List.append_assoc, List.cons_append, List.append_assoc, List.cons_append,
    torSscanf_twoDigits (by omega) (head_of_isDigit rfl), torSscanf_char,
    torSscanf_twoDigits (by omega) (head_of_isDigit rfl), torSscanf_char, torSscanf_twoDigits (by omega) hrest]

theorem torSscanf_year (hn : n < 2 ^ 32) (hsep : isDigit separator = false) :
    torSscanf (.u maxScanfWidth :: .char separator :: pattern) (decimal n ++ separator :: rest) =
      n :: torSscanf pattern rest := by
  have hlen : (decimal n).length ≤ 10 := length_decimal_le (by decide) (hn.trans (by decide))
  have hread : torSscanf (.u maxScanfWidth :: .char separator :: pattern) (decimal n ++ separator :: rest) =
      decimalValue (decimal n) :: torSscanf (.char separator :: pattern) (separator :: rest) :=
    torSscanf_digits (fun c => isDigit_of_mem_decimal) (List.length_pos_iff.mpr (decimal_ne_nil n))
      (hlen.trans (by decide)) (hlen.trans (by decide)) (by rwa [decimalValue_decimal]) (head_of_isDigit hsep)
  rwa [decimalValue_decimal, torSscanf_char] at hread

/-- A larger year ends the matching, even if only some of its digits are read. -/
theorem torSscanf_largeYear (hn : 2 ^ 32 ≤ n) (hsep : isDigit separator = false) :
    (torSscanf (.u maxScanfWidth :: .char separator :: pattern)
      (decimal n ++ separator :: rest)).length ≤ 1 := by
  obtain ⟨d, ds, hd⟩ := List.exists_cons_of_ne_nil (decimal_ne_nil n)
  have hscan : ∀ v buf, scanUnsigned maxScanfWidth (decimal n ++ separator :: rest) = some (v, buf) →
      v = n ∧ buf = separator :: rest ∨ ∃ c ∈ buf.head?, isDigit c = true :=
    fun v buf => scanUnsigned_eq_some (head_of_isDigit hsep)
  rw [hd, List.cons_append] at hscan ⊢
  rw [torSscanf]
  split
  · next v buf hv =>
    split_ifs with hlarge
    · exact Nat.zero_le _
    · rcases hscan v buf hv with ⟨rfl, -⟩ | ⟨c, hc, hdigit⟩
      · exact absurd hn hlarge
      · -- the separator is expected where a digit is left
        obtain ⟨buf', rfl⟩ : ∃ buf', buf = c :: buf' := by
          cases buf with
          | nil => cases hc
          | cons b buf' =>
            cases hc
            exact ⟨buf', rfl⟩
        have hne : c ≠ separator := by
          rintro rfl
          rw [hdigit] at hsep
          cases hsep
        rw [torSscanf, if_neg hne, List.length_singleton]
  · exact Nat.zero_le _

end Scan

theorem torSscanf_isoText {separator : UInt8} (hsep : isDigit separator = false)
    (hyear : (dateOf t).year < 2 ^ 32) : torSscanf isoPattern (isoText separator t) =
      [(dateOf t).year, (dateOf t).month, (dateOf t).day, separator.toNat, t % 86400 / 3600, t % 3600 / 60,
        t % 60] := by
  have hmonth := (valid_dateOf t).month_le
  have hday := day_dateOf_le t
  have hclock := @torSscanf_clockText t [.c] [] (by rintro _ ⟨⟩)
  rw [List.append_nil] at hclock
  rw [isoPattern, isoText, torSscanf_year hyear rfl, torSscanf_twoDigits (by omega) (head_of_isDigit rfl),
    torSscanf_char, torSscanf_twoDigits (by omega) (head_of_isDigit hsep), torSscanf, hclock]
  rfl

/-- **What `parse_iso_time_` does** with a rendering in its format. -/
theorem parseIsoTime_isoText (nospace : Bool) (t : ℕ) :
    parseIsoTime_ (isoText (if nospace then 0x54 else 0x20) t) true nospace =
      if ((dateOf t).year : ℤ) < int32Max then torTimegm (tmOf t) else none := by
  have hsep : isDigit (if nospace then 0x54 else 0x20) = false := by cases nospace <;> rfl
  have hmax : int32Max = 2 ^ 31 - 1 := rfl
  rcases Nat.lt_or_ge (dateOf t).year (2 ^ 32) with hyear | hyear
  · have hvalid := valid_dateOf t
    have h1 := hvalid.month_pos
    have h2 := hvalid.month_le
    have h3 := hvalid.day_pos
    have h4 := day_dateOf_le t
    have h5 := le_year_dateOf t
    rw [parseIsoTime_, torSscanf_isoText hsep hyear]
    dsimp only
    rw [if_neg (by simp), if_neg (by cases nospace <;> simp)]
    by_cases hlt : ((dateOf t).year : ℤ) < int32Max
    · rw [if_neg (by omega), if_pos hlt]
      rfl
    · rw [if_pos (by omega), if_neg hlt]
  · have hlt : ¬((dateOf t).year : ℤ) < int32Max := by omega
    have hshort : (torSscanf isoPattern (isoText (if nospace then 0x54 else 0x20) t)).length ≤ 1 := by
      rw [isoPattern, isoText]
      exact torSscanf_largeYear hyear rfl
    rw [if_neg hlt, parseIsoTime_]
    match torSscanf isoPattern (isoText (if nospace then 0x54 else 0x20) t), hshort with
    | [], _ => rfl
    | [_], _ => rfl

/-! ### RFC 1123 -/

/-- The year has four digits where the text has 29 characters. -/
theorem length_rfc1123Text (t : ℕ) :
    (rfc1123Text t).length = rfc1123TimeLen ↔ (dateOf t).year ≤ 9999 := by
  have hyear := le_year_dateOf t
  have hle := length_decimal_le_iff (n := (dateOf t).year) (k := 4) (by decide)
  have hge := length_decimal_le_iff (n := (dateOf t).year) (k := 3) (by decide)
  have hweekday : ∀ i < 7, (weekdayNames.getD i []).length = 3 := by decide
  have hmonth : ∀ i < 12, (monthNames.getD i []).length = 3 := by decide
  have h1 := hweekday _ (Nat.mod_lt (t / 86400 + 4) (by decide))
  have h2 := hmonth ((dateOf t).month - 1) (by have := (valid_dateOf t).month_le; omega)
  simp only [rfc1123Text, clockText, twoDigits, rfc1123TimeLen, List.length_append, List.length_cons,
    List.length_nil, h1, h2]
  omega

theorem torSscanfArgs_rfc1123Text (hyear : (dateOf t).year ≤ 9999) :
    torSscanfArgs rfc1123Pattern (rfc1123Text t) =
      [.string (weekdayNames.getD ((t / 86400 + 4) % 7) []), .number (dateOf t).day,
        .string (monthNames.getD ((dateOf t).month - 1) []), .number (dateOf t).year,
        .number (t % 86400 / 3600), .number (t % 3600 / 60), .number (t % 60)] := by
  have hday := day_dateOf_le t
  have hweekdays : ∀ i < 7, (weekdayNames.getD i []).length = 3 ∧
      ∀ c ∈ weekdayNames.getD i [], isSpace c = false := by decide +kernel
  have hmonths : ∀ i < 12, (monthNames.getD i []).length = 3 ∧
      ∀ c ∈ monthNames.getD i [], isSpace c = false := by decide +kernel
  have hweekday := hweekdays _ (Nat.mod_lt (t / 86400 + 4) (by decide))
  have hmonth := hmonths ((dateOf t).month - 1) (by have := (valid_dateOf t).month_le; omega)
  have hread : ∀ specs rest, (∀ c ∈ rest.head?, isDigit c = false) →
      torSscanfArgs (.item (.u 2) :: specs) (twoDigits (dateOf t).day ++ rest) =
        .number (decimalValue (twoDigits (dateOf t).day)) :: torSscanfArgs specs rest := fun specs rest hrest =>
    torSscanfArgs_digits (fun c => isDigit_of_mem_twoDigits (by omega)) Nat.two_pos le_rfl
      (show 2 ≤ 19 by decide) (by rw [decimalValue_twoDigits (by omega)]; omega) hrest
  have hclock := @torSscanf_clockText t [.char 0x20, .char 0x47, .char 0x4d, .char 0x54]
    [0x20, 0x47, 0x4d, 0x54] (head_of_isDigit rfl)
  rw [rfc1123Pattern, rfc1123Text, torSscanfArgs_s hweekday.2 hweekday.1, torSscanfArgs_char,
    torSscanfArgs_char,
    hread _ _ (head_of_isDigit rfl), decimalValue_twoDigits (by omega), torSscanfArgs_char,
    torSscanfArgs_s hmonth.2 hmonth.1, torSscanfArgs_char, torSscanfArgs_item,
    torSscanf_year (by omega) rfl, hclock]
  rfl

theorem findIdx?_monthNames : ∀ m < 12, monthNames.findIdx? (· == monthNames.getD m []) = some m := by
  decide +kernel

/-- **What `parse_rfc1123_time` does** with a rendering in its format. -/
theorem parseRfc1123Time_rfc1123Text (t : ℕ) : parseRfc1123Time (rfc1123Text t) =
    if (dateOf t).year ≤ 9999 then torTimegm (tmOf t) else none := by
  rw [parseRfc1123Time]
  by_cases hyear : (dateOf t).year ≤ 9999
  · rw [if_neg (not_not.mpr ((length_rfc1123Text t).mpr hyear)), if_pos hyear, torSscanfArgs_rfc1123Text hyear]
    have hvalid := valid_dateOf t
    have h1970 := le_year_dateOf t
    have hmonth := hvalid.month_pos
    have hmonth' := hvalid.month_le
    have hday := hvalid.day_pos
    have hmax : int32Max = 2 ^ 31 - 1 := rfl
    have hfind := findIdx?_monthNames ((dateOf t).month - 1) (by omega)
    have hyears : (decide (((dateOf t).year : ℤ) ≥ int32Max) || decide ((dateOf t).year < 1970)) = false := by
      rw [Bool.or_eq_false_iff, decide_eq_false_iff_not, decide_eq_false_iff_not]
      omega
    have hleap := isLeapyear_iff (y := (dateOf t).year) (by omega)
    have hdpm := @monthLength_eq (dateOf t).year ((dateOf t).month - 1) (by omega)
    rw [Nat.sub_add_cancel hmonth] at hdpm
    have hday' : ((dateOf t).day : ℤ) ≤ monthLength (dateOf t).year (dateOf t).month :=
      Nat.cast_le.mpr hvalid.day_le
    have hcast : (((dateOf t).month - 1 : ℕ) : ℤ) = (dateOf t).month - 1 := Nat.cast_sub hmonth
    rw [Int.toNat_natCast] at hleap
    dsimp only
    rw [hfind]
    dsimp only
    rw [hyears]
    simp only [hleap, true_and]
    rw [← hdpm, if_neg (by simp only [Bool.false_eq_true, false_or]; omega), hcast]
    rfl
  · rw [if_pos (mt (length_rfc1123Text t).mp hyear), if_neg hyear]

/-! ### Both -/

/-- **`tor_timegm` is Gregorian** except on the 29th of February of the years that 400 divides and of those
that are 300 more; and the parsers read a time back unless it is on such a day or its year is too large for
the format. -/
theorem timesGregorian (tm : Tm) (t : ℕ) :
    (torTimegm tm = gregorianTimegm tm ↔ ¬(tm.InRange ∧ tm.CenturyDay)) ∧
      (parseIsoTime (isoText 0x20 t) = some (t : ℤ) ↔ Parsed t) ∧
        (parseIsoTimeNospace (isoText 0x54 t) = some (t : ℤ) ↔ Parsed t) ∧
        (parseRfc1123Time (rfc1123Text t) = some (t : ℤ) ↔ (dateOf t).year ≤ 9999 ∧ Parsed t) := by
  have hiso : ∀ t : ℕ, (if ((dateOf t).year : ℤ) < int32Max then torTimegm (tmOf t) else none) = some (t : ℤ) ↔
      Parsed t := by
    intro t
    rw [← torTimegm_tmOf]
    split_ifs with hlt
    · rfl
    · rw [torTimegm_tmOf, Parsed]
      simp [hlt]
  refine ⟨torTimegm_eq_iff, ?_, ?_, ?_⟩
  · rw [parseIsoTime, ← hiso t, ← parseIsoTime_isoText false t]
    rfl
  · rw [parseIsoTimeNospace, ← hiso t, ← parseIsoTime_isoText true t]
    rfl
  · rw [parseRfc1123Time_rfc1123Text, ← torTimegm_tmOf]
    split_ifs with hyear
    · simp [hyear]
    · simp [hyear]

/-- The 29th of February of 2000 is rejected. -/
theorem not_gregorian_feb29 : torTimegm ⟨100, 1, 29, 0, 0, 0⟩ = none ∧
    gregorianTimegm ⟨100, 1, 29, 0, 0, 0⟩ = some 951782400 := by
  decide +kernel

end TorEbpf.Encoding
