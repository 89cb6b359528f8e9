import Regraft.Record.Moment
import Regraft.Proofs.Number.Digits
/-!
# Moments read back

A moment of universal time on the calendar is read from its notation in artifacts as it was written
(`ofText?_showZulu`), to the microsecond.
-/
namespace Regraft.Moment

/-- A moment of universal time that a calendar and a clock can show. -/
structure IsUniversal (m : Moment) : Prop where
  offset : m.offset = some 0
  year : 1 ≤ m.year ∧ m.year < 10 ^ 4
  month : 1 ≤ m.month ∧ m.month ≤ 12
  day : 1 ≤ m.day ∧ m.day ≤ daysIn m.year m.month
  hour : m.hour < 24
  minute : m.minute < 60
  second : m.second < 60
  microsecond : m.microsecond < 10 ^ 6

theorem daysIn_le (year month : Nat) : daysIn year month ≤ 31 := by
  unfold daysIn
  split
  · split <;> omega
  all_goals omega

/-! ## Parts -/

/-- A number that fits into its digits is taken as it was written. -/
theorem takeNumber?_showPadded {count n : Nat} (hcount : 0 < count) (h : n < 10 ^ count) (rest : Text) :
    takeNumber? count (showPadded count (n : Int) ++ rest) = some (n, rest) := by
  have hlen := length_showPadded hcount h
  have htake : (showPadded count (n : Int) ++ rest).take count = showPadded count n := List.take_left' hlen
  have hdrop : (showPadded count (n : Int) ++ rest).drop count = rest := List.drop_left' hlen
  have hdigits : (showPadded count (n : Int)).all CodePoint.isDigit = true :=
    List.all_eq_true.mpr fun c hc => isDigit_of_mem_showPadded hc
  simp [takeNumber?, htake, hdrop, hlen, hdigits, digitsValue_showPadded]

theorem takeNumber?_two {n : Nat} (h : n < 100) (rest : Text) : takeNumber? 2 (two n ++ rest) = some (n, rest) :=
  takeNumber?_showPadded (by omega) h rest

theorem skip?_cons (c : CodePoint) (rest : Text) : skip? c (c :: rest) = some rest :=
  after?_eq_some_iff.mpr rfl

/-- The microseconds as they are written behind the seconds. -/
def showFraction (microsecond : Nat) : Text :=
  if microsecond = 0 then [] else char '.' :: showPadded 6 microsecond

theorem takeFraction?_showFraction {n : Nat} (h : n < 10 ^ 6) :
    takeFraction? (showFraction n ++ [char 'Z']) = some (n, [char 'Z']) := by
  by_cases hzero : n = 0
  · subst hzero
    rfl
  · have hdigits : ∀ c ∈ showPadded 6 (n : Int), CodePoint.isDigit c = true := fun c hc => isDigit_of_mem_showPadded hc
    have htake : (showPadded 6 (n : Int) ++ [char 'Z']).takeWhile CodePoint.isDigit = showPadded 6 n := by
      rw [List.takeWhile_append_of_pos hdigits]
      exact List.append_nil _
    have hdrop : (showPadded 6 (n : Int) ++ [char 'Z']).dropWhile CodePoint.isDigit = [char 'Z'] := by
      rw [List.dropWhile_append_of_pos hdigits]
      rfl
    have hsix : (showPadded 6 (n : Int) ++ List.replicate 6 (char '0')).take 6 = showPadded 6 n :=
      List.take_left' (length_showPadded (by omega) h)
    have hsome : (showPadded 6 (n : Int)).isEmpty = false := by
      simpa using showPadded_ne_nil 6 n
    simp only [showFraction, hzero, if_false, List.cons_append, takeFraction?, decide_true, Bool.true_or, if_true,
      htake, hdrop, hsix, hsome, Bool.false_eq_true, digitsValue_showPadded]

/-! ## Whole moments -/

section
variable {m : Moment}

/-- The time of day as it is written behind a date, with the letter of universal time. -/
def showTime (m : Moment) : Text :=
  two m.hour ++ char ':' :: (two m.minute ++ char ':' :: (two m.second ++
    (showFraction m.microsecond ++ [char 'Z'])))

/-- The parts of a moment in writing. -/
theorem showZulu_eq (h : m.IsUniversal) :
    m.showZulu = showPadded 4 m.year ++ char '-' :: (two m.month ++ char '-' :: (two m.day ++
      char 'T' :: m.showTime)) := by
  simp [showZulu, showLocal, showFraction, showTime, h.offset]

/-- The date in front of the time. -/
theorem takeDate?_showZulu (h : m.IsUniversal) :
    takeDate? m.showZulu = some (⟨m.year, m.month, m.day, 0, 0, 0, 0, none⟩, char 'T' :: m.showTime) := by
  have hdays := daysIn_le m.year m.month
  obtain ⟨hday, hmonthDays⟩ := h.day
  have hmonth := h.month
  rw [showZulu_eq h]
  simp only [takeDate?, takeNumber?_showPadded (by decide : 0 < 4) h.year.2, skip?_cons,
    takeNumber?_two (show m.month < 100 by omega), takeNumber?_two (show m.day < 100 by omega), bind, Option.bind]
  rw [if_pos ⟨h.year.1, h.month.1, h.month.2, hday, hmonthDays⟩]

/-- The time behind a date. -/
theorem withTime?_showTime (h : m.IsUniversal) (date : Moment) :
    withTime? date m.showTime =
      some { date with hour := m.hour, minute := m.minute, second := m.second, microsecond := m.microsecond,
                       offset := some 0 } := by
  have hhour := h.hour
  have hminute := h.minute
  have hsecond := h.second
  simp only [showTime, withTime?, takeNumber?_two (show m.hour < 100 by omega), skip?_cons,
    takeNumber?_two (show m.minute < 100 by omega), takeSeconds?, takeNumber?_two (show m.second < 100 by omega),
    takeFraction?_showFraction h.microsecond, bind, Option.bind, pure]
  simp [takeOffset?, hhour, hminute, hsecond]

/-- A moment of universal time is read as it was written. -/
theorem ofText?_showZulu (h : m.IsUniversal) : ofText? m.showZulu = some m := by
  rw [ofText?, takeDate?_showZulu h]
  simp only [withTime?_showTime h]
  obtain ⟨year, month, day, hour, minute, second, microsecond, offset⟩ := m
  obtain rfl : offset = some 0 := h.offset
  rfl

end

end Regraft.Moment
