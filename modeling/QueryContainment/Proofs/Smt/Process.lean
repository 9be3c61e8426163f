import QueryContainment.Proofs.Smt.Reply
import QueryContainment.Proofs.Text.Utf8
import QueryContainment.Smt.Process

namespace QueryContainment

open Text

theorem Text.isBlank_of_isDigit {c : Char} (h : c.isDigit) : isBlank c = false := by
  have hdigit : 48 ≤ c.toNat ∧ c.toNat ≤ 57 := by
    simpa [Char.isDigit, UInt32.le_iff_toNat_le] using h
  simp [isBlank]
  omega

namespace Smt

theorem isDigit_of_mem_toString {n : Nat} {c : Char} (h : c ∈ (toString n).toList) : c.isDigit := by
  rw [Nat.toString_eq_ofList_toDigits, String.toList_ofList] at h
  exact Nat.isDigit_of_mem_toDigits (by decide) (by decide) h

theorem toString_ne_nil (n : Nat) : (toString n).toList ≠ [] := by
  rw [Nat.toString_eq_ofList_toDigits, String.toList_ofList]
  exact Nat.toDigits_ne_nil

theorem takeWhile_isDigit_toString (n : Nat) {rest : List Char}
    (h : ∀ c ∈ rest.head?, c.isDigit = false) :
    ((toString n).toList ++ rest).takeWhile Char.isDigit = (toString n).toList := by
  have hrest : rest.takeWhile Char.isDigit = [] := by
    cases rest with
    | nil => rfl
    | cons c rest => exact List.takeWhile_cons_of_neg (by simp [h c rfl])
  rw [List.takeWhile_append_of_pos fun c => isDigit_of_mem_toString, hrest, List.append_nil]

theorem Settings.digitsValue_toString (n : Nat) : digitsValue (toString n).toList = n := by
  rw [Nat.toString_eq_ofList_toDigits, String.toList_ofList]
  exact Nat.ofDigitChars_ten_toDigits

theorem toString_injective : Function.Injective (toString : Nat → String) := by
  intro m n h
  calc
    m = Settings.digitsValue (toString m).toList := (Settings.digitsValue_toString m).symm
    _ = Settings.digitsValue (toString n).toList := by rw [h]
    _ = n := Settings.digitsValue_toString n

/-- How a process has ended can be told from its text. -/
theorem Ending.text_injective : Function.Injective Ending.text := by
  -- behind the number of a signal stands nothing, or a space and its name
  have hkilled (n : Nat) : ((Ending.killed n).text.toList.drop 8).takeWhile Char.isDigit =
      (toString n).toList := by
    have htext : (Ending.killed n).text.toList.drop 8 = (toString n).toList ++
        (((signalName? n).map fun s => " (" ++ s ++ ")").getD "").toList := by
      simp [Ending.text]
    rw [htext]
    refine takeWhile_isDigit_toString n fun c hc => ?_
    cases hname : signalName? n with
    | none => simp [hname] at hc
    | some name =>
      obtain rfl : ' ' = c := by simpa [hname] using hc
      decide
  intro a b h
  have hlist : a.text.toList = b.text.toList := congrArg String.toList h
  cases a with
  | exited m =>
    cases b with
    | exited n =>
      have hnumber : toString m = toString n := by
        simpa [Ending.text] using h
      rw [toString_injective hnumber]
    | killed n => simp [Ending.text] at hlist
  | killed m =>
    cases b with
    | exited n => simp [Ending.text] at hlist
    | killed n =>
      have hnumber : (toString m).toList = (toString n).toList := by
        rw [← hkilled m, ← hkilled n, hlist]
      rw [toString_injective (String.toList_inj.1 hnumber)]

namespace Settings

variable {s : Settings} {program : Program}

theorem readNumber_digits {digits : List Char} (hne : digits ≠ [])
    (hdigits : ∀ c ∈ digits, c.isDigit) (hlt : digitsValue digits < Nat.pow 2 64) :
    readNumber digits = some (digitsValue digits) := by
  cases digits with
  | nil => exact absurd rfl hne
  | cons c digits =>
    have hsign : c ≠ '+' := by
      rintro rfl
      exact absurd (hdigits '+' List.mem_cons_self) (by decide)
    have hall : (c :: digits).all Char.isDigit := List.all_eq_true.2 hdigits
    unfold readNumber
    split
    · next heq => exact absurd (List.cons.inj heq).1 hsign
    · rw [if_pos (by simpa [hall] using hlt)]

theorem readNumber_toString {n : Nat} (h : n < Nat.pow 2 64) :
    readNumber (toString n).toList = some n := by
  have hread := readNumber_digits (toString_ne_nil n) (fun c => isDigit_of_mem_toString)
    (by rwa [digitsValue_toString])
  rwa [digitsValue_toString] at hread

/--
A number of milliseconds that the environment sets, with any white space around it, is the one that
the program is given.
-/
theorem arguments_ofEnvironment {path front back : String} {n : Nat} (hpath : path ≠ "")
    (hfront : Blank front.toList) (hback : Blank back.toList) (hn : n < Nat.pow 2 64) :
    ∃ s, ofEnvironment (some path) (some (front ++ toString n ++ back)) = .ok s ∧
      s.program = path ∧ s.arguments = ["-in", "-smt2", "-t:" ++ toString n] := by
  have htrim : trim (front ++ toString n ++ back).toList = (toString n).toList := by
    refine trim_of_trimsTo ⟨⟨front.toList, back.toList, by simp, hfront, hback⟩, ?_, ?_⟩
    · exact fun c hc => isBlank_of_isDigit (isDigit_of_mem_toString (List.mem_of_head? hc))
    · exact fun c hc => isBlank_of_isDigit (isDigit_of_mem_toString (List.mem_of_getLast? hc))
  refine ⟨{ program := path, timeout := n }, ?_, rfl, rfl⟩
  have hempty : path.isEmpty = false := by simpa using hpath
  simp only [ofEnvironment, override, htrim, readNumber_toString hn, hempty]
  rfl

/-- The formula comes to the program and its reply comes back, however the program ends. -/
theorem evaluate_of_texts {output errors : String → String}
    (h : ∀ text, ∃ ending, program s.arguments (encode text) =
      .ok ⟨encode (output text), encode (errors text), ending⟩) (formula : String) :
    (¬Blank (output formula).toList → s.evaluate program formula = .ok (output formula)) ∧
      (Blank (output formula).toList → s.evaluate program formula = .ok (errors formula)) := by
  obtain ⟨ending, hrun⟩ := h formula
  have heval : s.evaluate program formula =
      .ok (if (output formula).toList.all isBlank then errors formula else output formula) := by
    simp only [evaluate, start, hrun, Except.mapError, bind, Except.bind, decode_encode]
    rfl
  have hall : (output formula).toList.all isBlank = true ↔ Blank (output formula).toList :=
    List.all_eq_true
  rw [heval]
  exact ⟨fun hblank => by rw [if_neg (mt hall.1 hblank)],
    fun hblank => by rw [if_pos (hall.2 hblank)]⟩

theorem evaluate_eq_error_iff {formula : String} {e : Failure} :
    s.evaluate program formula = .error e ↔ ∃ reason,
      program s.arguments (encode formula) = .error reason ∧ reason.toFailure s.program = e := by
  simp only [evaluate, start]
  cases program s.arguments (encode formula) with
  | error reason => simp [Except.mapError, bind, Except.bind]
  | ok r => simp [Except.mapError, bind, Except.bind, pure, Except.pure]

theorem version_eq_ok_iff {v : String} : s.version program = .ok v ↔ ∃ r,
    program ["--version"] [] = .ok r ∧ r.ending = .exited 0 ∧
      String.ofList (trim (decode r.output).toList) = v := by
  simp only [version, start]
  cases program ["--version"] [] with
  | error reason => simp [Except.mapError, bind, Except.bind]
  | ok r =>
    simp only [Except.mapError, bind, Except.bind]
    split
    · next hzero => simp [hzero, pure, Except.pure]
    · next hother => simpa [throw, throwThe, MonadExceptOf.throw] using fun h => absurd h hother

end Settings

end Smt

end QueryContainment
