import Mathlib.Algebra.Group.Nat.Defs
import Mathlib.Data.List.DropRight
import Monkey.Proofs.Arithmetic
import Monkey.Run.Elapsed

/-!
# Elapsed time read back

The text of a span is a row of numbers, each with its unit behind it. `Elapsed.read?` reads such
a text from the left and adds up what the numbers are worth in milliseconds. It knows nothing of
how a span is written.

`Elapsed.Form` says what the text of a span looks like: which parts it has, how large their
numbers may be, and that no zero is written that could be left out. Reading a text of this form
gives its worth (`Elapsed.Form.read?_text`), so it has one worth only. Every span is written in
this form and is worth its milliseconds (`Elapsed.exists_form`).
-/

namespace Monkey

/-! ## Rows of digits -/

theorem digitsValue_append_zeros (digits : List Char) (k : Nat) :
    digitsValue (digits ++ List.replicate k '0') = 10 ^ k * digitsValue digits := by
  show Nat.ofDigitChars 10 _ 0 = 10 ^ k * Nat.ofDigitChars 10 _ 0
  rw [Nat.ofDigitChars_append, Nat.ofDigitChars_replicate_zero]

theorem digitsValue_zeros_append (k : Nat) (digits : List Char) :
    digitsValue (List.replicate k '0' ++ digits) = digitsValue digits := by
  show Nat.ofDigitChars 10 _ 0 = Nat.ofDigitChars 10 _ 0
  rw [Nat.ofDigitChars_append, Nat.ofDigitChars_replicate_zero, Nat.mul_zero]

/-- Without the zeros at its end a row of digits denotes a number that is smaller by a power of
ten. -/
theorem digitsValue_rdropWhile_zeros (digits : List Char) :
    10 ^ (digits.length - (digits.rdropWhile (· == '0')).length) *
        digitsValue (digits.rdropWhile (· == '0')) = digitsValue digits := by
  have hzeros : digits.rtakeWhile (· == '0') =
      List.replicate (digits.rtakeWhile (· == '0')).length '0' :=
    List.eq_replicate_iff.mpr ⟨rfl, fun c hc => by simpa using List.mem_rtakeWhile_imp hc⟩
  have hsplit := List.rdropWhile_append_rtakeWhile (p := (· == '0')) (l := digits)
  have hlength := congrArg List.length hsplit
  rw [List.length_append] at hlength
  rw [← digitsValue_append_zeros, ← hlength, Nat.add_sub_cancel_left, ← hzeros, hsplit]

theorem head?_toDigits_ne_zero {n : Nat} (h : n ≠ 0) : (Nat.toDigits 10 n).head? ≠ some '0' := by
  induction n using Nat.strong_induction_on with
  | _ n ih =>
    rw [Nat.toDigits_eq_if (by decide)]
    split
    · simpa using h
    · rw [List.head?_append_of_ne_nil _ Nat.toDigits_ne_nil]
      exact ih (n / 10) (by omega) (by omega)

namespace Elapsed

/-! ## Reading a text -/

/-- What a number in the text of a span counts. -/
inductive TimeUnit where
  | hour
  | minute
  | second
  | millisecond
deriving DecidableEq, Repr

namespace TimeUnit

/-- How a unit is written. -/
def symbol : TimeUnit → List Char
  | hour => ['h']
  | minute => ['m']
  | second => ['s']
  | millisecond => ['m', 's']

/-- What a unit is worth in milliseconds. -/
def millis : TimeUnit → Nat
  | hour => 3600000
  | minute => 60000
  | second => 1000
  | millisecond => 1

/-- The unit at the front of a text, and what comes after it. -/
def read? : List Char → Option (TimeUnit × List Char)
  | 'h' :: rest => some (hour, rest)
  | 'm' :: 's' :: rest => some (millisecond, rest)
  | 'm' :: rest => some (minute, rest)
  | 's' :: rest => some (second, rest)
  | _ => none

theorem length_lt_of_read? {cs rest : List Char} {u : TimeUnit} (h : read? cs = some (u, rest)) :
    rest.length < cs.length := by
  unfold read? at h
  split at h <;> cases h <;> simp only [List.length_cons] <;> omega

/-- A unit is read back if no letter comes after it with which it would be another unit. -/
theorem read?_symbol (u : TimeUnit) {rest : List Char} (h : rest.head? ≠ some 's') :
    read? (u.symbol ++ rest) = some (u, rest) := by
  cases u with
  | minute =>
    rcases rest with _ | ⟨c, rest⟩
    · rfl
    · have hc : c ≠ 's' := by simpa using h
      simp [symbol, read?, hc]
  | _ => rfl

end TimeUnit

/-- The digits after a point at the front of a text, and what comes after them. -/
def readFraction : List Char → List Char × List Char
  | '.' :: rest => (rest.takeWhile Char.isDigit, rest.dropWhile Char.isDigit)
  | rest => ([], rest)

theorem length_readFraction_le (cs : List Char) : (readFraction cs).2.length ≤ cs.length := by
  unfold readFraction
  split
  · have hdrop := Lexeme.length_dropWhile_le Char.isDigit
    exact (hdrop _).trans (Nat.le_succ _)
  · exact Nat.le_refl _

/-- What a number is worth in milliseconds, given its digits before and after the point. -/
def worth (u : TimeUnit) (whole fraction : List Char) : Nat :=
  digitsValue whole * u.millis + digitsValue fraction * (u.millis / 10 ^ fraction.length)

/-- What the number at the front of a text is worth with its unit, and what comes after them. -/
def readPart? (cs : List Char) : Option (Nat × List Char) :=
  let number := readFraction (cs.dropWhile Char.isDigit)
  (TimeUnit.read? number.2).map fun (u, rest) =>
    (worth u (cs.takeWhile Char.isDigit) number.1, rest)

theorem length_lt_of_readPart? {cs rest : List Char} {n : Nat}
    (h : readPart? cs = some (n, rest)) : rest.length < cs.length := by
  obtain ⟨⟨u, rest⟩, hunit, heq⟩ := Option.map_eq_some_iff.mp h
  cases heq
  calc rest.length
      < (readFraction (cs.dropWhile Char.isDigit)).2.length := TimeUnit.length_lt_of_read? hunit
    _ ≤ (cs.dropWhile Char.isDigit).length := length_readFraction_le _
    _ ≤ cs.length := Lexeme.length_dropWhile_le Char.isDigit cs

/-- The milliseconds that a text is worth: the sum of its numbers with their units. -/
def read? (cs : List Char) : Option Nat :=
  if cs = [] then some 0
  else
    match _h : readPart? cs with
    | none => none
    | some (n, rest) => (read? rest).map (n + ·)
termination_by cs.length
decreasing_by exact length_lt_of_readPart? _h

theorem read?_nil : read? [] = some 0 := by rw [read?, if_pos rfl]

theorem read?_of_readPart? {cs rest : List Char} {n : Nat} (h : readPart? cs = some (n, rest)) :
    read? cs = (read? rest).map (n + ·) := by
  have hne : cs ≠ [] := List.length_pos_iff.mp (Nat.zero_lt_of_lt (length_lt_of_readPart? h))
  rw [read?, if_neg hne]
  split
  · next hnone => cases hnone.symm.trans h
  · next hsome =>
    cases hsome.symm.trans h
    rfl

/-- A point and the digits after it, nothing if there are none. -/
def point (fraction : List Char) : List Char :=
  if fraction = [] then [] else '.' :: fraction

theorem readFraction_point {fraction cs : List Char} (hf : ∀ c ∈ fraction, c.isDigit = true)
    (hcs : ∀ c ∈ cs.head?, c.isDigit = false ∧ c ≠ '.') :
    readFraction (point fraction ++ cs) = (fraction, cs) := by
  unfold point
  split
  · next hnil =>
    subst hnil
    rcases cs with _ | ⟨c, cs⟩
    · rfl
    · have hc : c ≠ '.' := (hcs c rfl).2
      simp [readFraction, hc]
  · have hstop : ∀ c ∈ cs.head?, c.isDigit = false := fun c hc => (hcs c hc).1
    rw [List.cons_append, readFraction, takeWhile_append_stop hf hstop,
      dropWhile_append_stop hf hstop]

/-- A number and its unit are read off the front of a text. -/
theorem read?_part (u : TimeUnit) {whole fraction rest : List Char} (hw : Token.IsDigits whole)
    (hf : ∀ c ∈ fraction, c.isDigit = true) (hrest : rest.head? ≠ some 's') :
    read? (whole ++ (point fraction ++ (u.symbol ++ rest))) =
      (read? rest).map (worth u whole fraction + ·) := by
  have hunit : ∀ c ∈ (u.symbol ++ rest).head?, c.isDigit = false ∧ c ≠ '.' := by
    cases u <;> simp [TimeUnit.symbol]
  have hstop : ∀ c ∈ (point fraction ++ (u.symbol ++ rest)).head?, c.isDigit = false := by
    unfold point
    split
    · exact fun c hc => (hunit c hc).1
    · simp
  refine read?_of_readPart? ?_
  simp only [readPart?, takeWhile_append_stop hw.2 hstop, dropWhile_append_stop hw.2 hstop,
    readFraction_point hf hunit, u.read?_symbol hrest, Option.map_some]

/-! ## The form of a text -/

/-- A number written without zeros in front that could be left out. -/
structure Count where
  digits : List Char
  isDigits : Token.IsDigits digits
  lead : digits.head? = some '0' → digits = ['0']

namespace Count

/-- The number that is written. -/
def value (c : Count) : Nat := digitsValue c.digits

/-- A number as it is shown. -/
def ofNat (n : Nat) : Count where
  digits := (toString n).toList
  isDigits := Arithmetic.Numeral.isDigits_toString n
  lead h := by
    rw [Nat.toString_eq_repr, Nat.toList_repr] at h ⊢
    obtain rfl : n = 0 := Classical.not_not.mp fun hn => head?_toDigits_ne_zero hn h
    exact Nat.toDigits_zero 10

@[simp] theorem digits_ofNat (n : Nat) : (ofNat n).digits = (toString n).toList := rfl

@[simp] theorem value_ofNat (n : Nat) : (ofNat n).value = n :=
  Arithmetic.Numeral.digitsValue_toString n

end Count

/-- Hours, minutes and seconds, at least a second in all, with at most three digits behind the
seconds, of which the last is not zero. -/
structure Clock where
  hours : Count
  minutes : Count
  seconds : Count
  fraction : List Char
  minutes_le : minutes.value ≤ 59
  seconds_le : seconds.value ≤ 59
  second : hours.value = 0 → minutes.value = 0 → 1 ≤ seconds.value
  isDigits : ∀ c ∈ fraction, c.isDigit = true
  short : fraction.length ≤ 3
  trimmed : fraction.getLast? ≠ some '0'

namespace Clock

/-- The hours are written if there are any. -/
def hourText (c : Clock) : List Char :=
  if 1 ≤ c.hours.value then c.hours.digits ++ ['h'] else []

/-- The minutes are written if there are any, and also if there are hours. -/
def minuteText (c : Clock) : List Char :=
  if 1 ≤ c.hours.value ∨ 1 ≤ c.minutes.value then c.minutes.digits ++ ['m'] else []

/-- The point is written if there are digits behind it. -/
def text (c : Clock) : List Char :=
  c.hourText ++ c.minuteText ++ c.seconds.digits ++ point c.fraction ++ ['s']

/-- What is written, in milliseconds. -/
def millis (c : Clock) : Nat :=
  c.hours.value * 3600000 + c.minutes.value * 60000 + c.seconds.value * 1000 +
    digitsValue c.fraction * 10 ^ (3 - c.fraction.length)

end Clock

/-- What the text of a span looks like. -/
inductive Form where
  | zero
  | millis (count : Count) (pos : 1 ≤ count.value) (le : count.value ≤ 999)
  | clock (c : Clock)

namespace Form

/-- How a form is written. -/
def text : Form → List Char
  | zero => ['0', 's']
  | millis count _ _ => count.digits ++ ['m', 's']
  | clock c => c.text

/-- What a form is worth in milliseconds. -/
def worth : Form → Nat
  | zero => 0
  | millis count _ _ => count.value
  | clock c => c.millis

end Form

/-! ### A form is read back -/

theorem read?_whole (u : TimeUnit) (count : Count) {rest : List Char}
    (hrest : rest.head? ≠ some 's') :
    read? (count.digits ++ (u.symbol ++ rest)) =
      (read? rest).map (count.value * u.millis + ·) := by
  have hworth : Elapsed.worth u count.digits [] = count.value * u.millis := by
    have hnone : digitsValue [] = 0 := rfl
    rw [Elapsed.worth, hnone, Nat.zero_mul, Nat.add_zero, Count.value]
  have hpart := read?_part u count.isDigits (List.forall_mem_nil _) hrest
  rwa [point, if_pos rfl, List.nil_append, hworth] at hpart

theorem head?_digits_append (count : Count) (cs : List Char) :
    (count.digits ++ cs).head? ≠ some 's' := by
  obtain ⟨c, digits, hdigits⟩ := List.exists_cons_of_ne_nil count.isDigits.1
  have hc : c.isDigit = true := count.isDigits.2 c (by simp [hdigits])
  rw [hdigits]
  rintro heq
  obtain rfl : c = 's' := by simpa using heq
  simp at hc

theorem Clock.read?_seconds (c : Clock) :
    read? (c.seconds.digits ++ (point c.fraction ++ ['s'])) =
      some (c.seconds.value * 1000 + digitsValue c.fraction * 10 ^ (3 - c.fraction.length)) := by
  have hscale : TimeUnit.second.millis / 10 ^ c.fraction.length = 10 ^ (3 - c.fraction.length) :=
    Nat.pow_div (x := 10) c.short (by decide)
  have hend : ([] : List Char).head? ≠ some 's' := nofun
  have hpart := read?_part .second c.seconds.isDigits c.isDigits hend
  rwa [List.append_nil, read?_nil, worth, hscale, Option.map_some, Nat.add_zero] at hpart

theorem Clock.read?_text (c : Clock) : read? c.text = some c.millis := by
  have hseconds := c.read?_seconds
  have hminutes := read?_whole .minute c.minutes
    (head?_digits_append c.seconds (point c.fraction ++ ['s']))
  have hhours := read?_whole .hour c.hours (head?_digits_append c.minutes
    (TimeUnit.minute.symbol ++ (c.seconds.digits ++ (point c.fraction ++ ['s']))))
  rw [hseconds] at hminutes
  rw [hminutes] at hhours
  simp only [TimeUnit.symbol, TimeUnit.millis, Option.map_some] at hminutes hhours
  by_cases hhour : 1 ≤ c.hours.value
  · have htext : c.text = c.hours.digits ++ (['h'] ++ (c.minutes.digits ++ (['m'] ++
        (c.seconds.digits ++ (point c.fraction ++ ['s']))))) := by
      simp [text, hourText, minuteText, hhour]
    rw [htext, hhours, millis]
    exact congrArg some (by omega)
  · have hzero : c.hours.value = 0 := by omega
    by_cases hminute : 1 ≤ c.minutes.value
    · have htext : c.text = c.minutes.digits ++ (['m'] ++
          (c.seconds.digits ++ (point c.fraction ++ ['s']))) := by
        simp [text, hourText, minuteText, hzero, hminute]
      rw [htext, hminutes, millis]
      exact congrArg some (by omega)
    · have hzero' : c.minutes.value = 0 := by omega
      have htext : c.text = c.seconds.digits ++ (point c.fraction ++ ['s']) := by
        simp [text, hourText, minuteText, hzero, hzero']
      rw [htext, hseconds, millis]
      exact congrArg some (by omega)

/-- A text in the form of a span is worth what its form is worth. -/
theorem Form.read?_text (form : Form) : read? form.text = some form.worth := by
  have hend : ([] : List Char).head? ≠ some 's' := nofun
  cases form with
  | zero =>
    have hpart := read?_whole .second (.ofNat 0) hend
    rw [read?_nil] at hpart
    exact hpart
  | millis count =>
    have hpart := read?_whole .millisecond count hend
    rw [read?_nil, List.append_nil] at hpart
    exact hpart.trans (congrArg some (Nat.mul_one _))
  | clock c => exact c.read?_text

/-! ### A span is written in this form -/

theorem toList_padded (width n : Nat) : (padded width n).toList =
    List.replicate (width - (toString n).length) '0' ++ (toString n).toList := by
  simp [padded]

/-- Three digits are enough for a number below a thousand. -/
theorem length_padded {n : Nat} (h : n < 1000) : (padded 3 n).toList.length = 3 := by
  have hlength : (toString n).length ≤ 3 := (Nat.length_repr_le_iff (by decide)).mpr h
  rw [toList_padded, List.length_append, List.length_replicate, String.length_toList]
  omega

theorem digitsValue_padded (width n : Nat) : digitsValue (padded width n).toList = n := by
  rw [toList_padded, digitsValue_zeros_append, Arithmetic.Numeral.digitsValue_toString]

theorem isDigit_of_mem_padded {width n : Nat} {c : Char} (hc : c ∈ (padded width n).toList) :
    c.isDigit = true := by
  rw [toList_padded, List.mem_append] at hc
  rcases hc with hc | hc
  · rw [List.eq_of_mem_replicate hc]
    rfl
  · exact (Arithmetic.Numeral.isDigits_toString n).2 c hc

/-- The digits that are written behind the point for a number of thousandths. -/
def thousandths (n : Nat) : List Char := (padded 3 n).toList.rdropWhile (· == '0')

section Thousandths

variable {n : Nat} (h : n < 1000)

theorem isDigit_of_mem_thousandths {c : Char} (hc : c ∈ thousandths n) : c.isDigit = true :=
  isDigit_of_mem_padded ((List.rdropWhile_prefix _ _).subset hc)

theorem getLast?_thousandths (n : Nat) : (thousandths n).getLast? ≠ some '0' := by
  intro hlast
  have hne : thousandths n ≠ [] := by
    intro hnil
    simp [hnil] at hlast
  rw [List.getLast?_eq_some_getLast hne] at hlast
  have hnot := List.rdropWhile_last_not (· == '0') (padded 3 n).toList hne
  exact hnot (beq_iff_eq.mpr (Option.some.inj hlast))

include h

theorem length_thousandths : (thousandths n).length ≤ 3 := by
  have hle := (List.rdropWhile_prefix (· == '0') (l := (padded 3 n).toList)).length_le
  rwa [length_padded h] at hle

theorem digitsValue_thousandths :
    digitsValue (thousandths n) * 10 ^ (3 - (thousandths n).length) = n := by
  have hvalue := digitsValue_rdropWhile_zeros (padded 3 n).toList
  rwa [length_padded h, digitsValue_padded, Nat.mul_comm] at hvalue

theorem point_thousandths : point (thousandths n) = (fraction n).toList := by
  by_cases hzero : n = 0
  · subst hzero
    rfl
  · have hne : thousandths n ≠ [] := by
      intro hnil
      have hvalue := digitsValue_thousandths h
      rw [hnil, digitsValue, List.foldl_nil, Nat.zero_mul] at hvalue
      exact hzero hvalue.symm
    rw [point, if_neg hne, fraction, if_neg hzero]
    simp [thousandths, List.rdropWhile]

end Thousandths

/-- The clock that shows a span of at least a second. -/
def Clock.ofMillis (millis : Nat) (h : 1000 ≤ millis) : Clock where
  hours := .ofNat (millis / 3600000)
  minutes := .ofNat (millis / 60000 % 60)
  seconds := .ofNat (millis / 1000 % 60)
  fraction := thousandths (millis % 1000)
  minutes_le := by
    rw [Count.value_ofNat]
    omega
  seconds_le := by
    rw [Count.value_ofNat]
    omega
  second := by
    simp only [Count.value_ofNat]
    omega
  isDigits _ hc := isDigit_of_mem_thousandths hc
  short := length_thousandths (Nat.mod_lt _ (by decide))
  trimmed := getLast?_thousandths _

theorem Clock.millis_ofMillis (n : Nat) (h : 1000 ≤ n) : (ofMillis n h).millis = n := by
  simp only [ofMillis, millis, Count.value_ofNat,
    digitsValue_thousandths (Nat.mod_lt n (by decide : 0 < 1000))]
  omega

theorem Clock.text_ofMillis (n : Nat) (h : 1000 ≤ n) :
    (ofMillis n h).text = (Elapsed.clock n).toList := by
  have hpoint := point_thousandths (Nat.mod_lt n (by decide : 0 < 1000))
  have hhour : (ofMillis n h).hourText =
      (if n / 3600000 = 0 then "" else toString (n / 3600000) ++ "h").toList := by
    show (if 1 ≤ (Count.ofNat _).value then _ else _) = _
    rw [Count.value_ofNat]
    by_cases hzero : n / 3600000 = 0
    · rw [if_neg (by omega), if_pos hzero]
      rfl
    · rw [if_pos (by omega), if_neg hzero, String.toList_append]
      rfl
  have hminute : (ofMillis n h).minuteText =
      (if n / 3600000 = 0 ∧ n / 60000 % 60 = 0 then "" else
        toString (n / 60000 % 60) ++ "m").toList := by
    show (if 1 ≤ (Count.ofNat _).value ∨ 1 ≤ (Count.ofNat _).value then _ else _) = _
    rw [Count.value_ofNat, Count.value_ofNat]
    by_cases hzero : n / 3600000 = 0 ∧ n / 60000 % 60 = 0
    · rw [if_neg (by omega), if_pos hzero]
      rfl
    · rw [if_pos (by omega), if_neg hzero, String.toList_append]
      rfl
  rw [text, hhour, hminute]
  simp only [Elapsed.clock, ofMillis, Count.digits_ofNat, hpoint, String.toList_append]
  rfl

/-- Every span is written in one of the forms, and is worth its milliseconds. -/
theorem exists_form (e : Elapsed) :
    ∃ form : Form, form.text = e.render.toList ∧ form.worth = e.millis := by
  obtain ⟨n⟩ := e
  unfold render
  split
  · next hzero => exact ⟨.zero, rfl, hzero.symm⟩
  · next hpos =>
    have hpos : n ≠ 0 := hpos
    split
    · next hsmall =>
      have hsmall : n < 1000 := hsmall
      refine ⟨.millis (.ofNat n) ?_ ?_, ?_, Count.value_ofNat n⟩
      · rw [Count.value_ofNat]
        omega
      · rw [Count.value_ofNat]
        omega
      · simp [Form.text]
    · next hlarge =>
      have hlarge : 1000 ≤ n := Nat.not_lt.mp hlarge
      exact ⟨.clock (.ofMillis n hlarge), Clock.text_ofMillis n hlarge,
        Clock.millis_ofMillis n hlarge⟩

theorem read?_render (e : Elapsed) : read? e.render.toList = some e.millis := by
  obtain ⟨form, htext, hworth⟩ := e.exists_form
  rw [← htext, form.read?_text, hworth]

example : read? "1h0m2.25s".toList = some 3602250 := by decide +kernel

theorem millis_ofSeconds (seconds nanos : Nat) :
    (ofSeconds seconds nanos).millis = (seconds * 1000000000 + nanos) / 1000000 := by
  show seconds * 1000 + nanos / 1000000 = _
  omega

/-- **The text of a span tells its milliseconds.** The text has one of three forms: `0s`, a number
of milliseconds, or hours, minutes and seconds, of which the hours and the minutes may be left
out. Read back, it gives the milliseconds of the span, those that began but did not end left out.
So two spans have the same text exactly if they have the same number of whole milliseconds. -/
theorem render_unambiguous (seconds nanos : Nat) :
    (∃ form : Form, form.text = (ofSeconds seconds nanos).render.toList ∧
        form.worth = (seconds * 1000000000 + nanos) / 1000000) ∧
      read? (ofSeconds seconds nanos).render.toList =
        some ((seconds * 1000000000 + nanos) / 1000000) ∧
      ∀ seconds' nanos' : Nat,
        (ofSeconds seconds' nanos').render = (ofSeconds seconds nanos).render ↔
          (seconds' * 1000000000 + nanos') / 1000000 = (seconds * 1000000000 + nanos) / 1000000 := by
  simp only [← millis_ofSeconds]
  refine ⟨exists_form _, read?_render _, fun seconds' nanos' => ⟨fun h => ?_, fun h => ?_⟩⟩
  · have hread := read?_render (ofSeconds seconds' nanos')
    rw [h, read?_render] at hread
    exact (Option.some.inj hread).symm
  · exact congrArg render (congrArg Elapsed.mk h)

end Elapsed

end Monkey
