import Mathlib.Data.List.DropRight
import QueryContainment.Smt.Answer

namespace QueryContainment

namespace Text

def Blank (s : List Char) : Prop := ∀ c ∈ s, isBlank c = true

/-- What may follow a line: nothing, or a line feed and whatever comes after it. -/
def EndsLine (t : List Char) : Prop := t = [] ∨ t.head? = some '\n'

/-- What stands in a text between white space, and has none at its ends. -/
structure TrimsTo (s core : List Char) : Prop where
  between : ∃ before after, s = before ++ core ++ after ∧ Blank before ∧ Blank after
  first : ∀ c ∈ core.head?, isBlank c = false
  last : ∀ c ∈ core.getLast?, isBlank c = false

variable {s t w core : List Char}

theorem blank_append : Blank (s ++ t) ↔ Blank s ∧ Blank t := List.forall_mem_append

theorem blank_reverse : Blank s.reverse ↔ Blank s := by simp [Blank]

theorem trimStart_append_of_blank (hw : Blank w) (s : List Char) :
    trimStart (w ++ s) = trimStart s :=
  List.dropWhile_append_of_pos hw

theorem exists_trimStart (s : List Char) : ∃ w, s = w ++ trimStart s ∧ Blank w :=
  ⟨s.takeWhile isBlank, List.takeWhile_append_dropWhile.symm, fun _ => List.mem_takeWhile_imp⟩

theorem trimStart_eq_nil_iff : trimStart s = [] ↔ Blank s := List.dropWhile_eq_nil_iff

theorem trimStart_of_first (h : ∀ c ∈ s.head?, isBlank c = false) : trimStart s = s := by
  cases s with
  | nil => rfl
  | cons c s => exact List.dropWhile_cons_of_neg (by simp [h c rfl])

theorem first_trimStart (s : List Char) : ∀ c ∈ (trimStart s).head?, isBlank c = false := by
  intro c hc
  have hfirst := List.head?_dropWhile_not isBlank s
  rw [show (s.dropWhile isBlank).head? = some c from hc] at hfirst
  exact hfirst

theorem trimStart_append_of_not_blank (hs : ¬Blank s) (t : List Char) :
    trimStart (s ++ t) = trimStart s ++ t := by
  have hne : (s.dropWhile isBlank).isEmpty = false := by
    rw [Bool.eq_false_iff, ne_eq, List.isEmpty_iff]
    exact fun h => hs (trimStart_eq_nil_iff.1 h)
  rw [trimStart, List.dropWhile_append, hne]
  rfl

theorem trimEnd_eq (s : List Char) : trimEnd s = (trimStart s.reverse).reverse := rfl

theorem trimEnd_append_of_blank (hw : Blank w) (s : List Char) : trimEnd (s ++ w) = trimEnd s := by
  rw [trimEnd_eq, List.reverse_append, trimStart_append_of_blank (blank_reverse.2 hw), trimEnd_eq]

theorem trimEnd_of_last (h : ∀ c ∈ s.getLast?, isBlank c = false) : trimEnd s = s := by
  rw [trimEnd_eq, trimStart_of_first (by rwa [List.head?_reverse]), List.reverse_reverse]

theorem exists_trimEnd (s : List Char) : ∃ w, s = trimEnd s ++ w ∧ Blank w := by
  obtain ⟨w, hs, hw⟩ := exists_trimStart s.reverse
  refine ⟨w.reverse, ?_, blank_reverse.2 hw⟩
  rw [trimEnd_eq, ← List.reverse_append, ← hs, List.reverse_reverse]

theorem last_trimEnd (s : List Char) : ∀ c ∈ (trimEnd s).getLast?, isBlank c = false := by
  rw [trimEnd_eq, List.getLast?_reverse]
  exact first_trimStart _

theorem trimsTo_trim (s : List Char) : TrimsTo s (trim s) := by
  obtain ⟨before, hs, hbefore⟩ := exists_trimStart s
  obtain ⟨after, hmid, hafter⟩ := exists_trimEnd (trimStart s)
  refine ⟨⟨before, after, ?_, hbefore, hafter⟩, fun c hc => ?_, last_trimEnd _⟩
  · rw [List.append_assoc, trim, ← hmid, ← hs]
  · refine first_trimStart s c ?_
    rw [hmid, List.head?_append, show (trimEnd (trimStart s)).head? = some c from hc]
    rfl

theorem trim_of_trimsTo (h : TrimsTo s core) : trim s = core := by
  obtain ⟨before, after, rfl, hbefore, hafter⟩ := h.between
  rw [List.append_assoc, trim, trimStart_append_of_blank hbefore]
  cases core with
  | nil =>
    rw [List.nil_append, trimStart_eq_nil_iff.2 hafter]
    rfl
  | cons c core =>
    have hstart : trimStart (c :: core ++ after) = c :: core ++ after := trimStart_of_first h.first
    rw [hstart, trimEnd_append_of_blank hafter, trimEnd_of_last h.last]

theorem trim_eq_iff : trim s = core ↔ TrimsTo s core :=
  ⟨fun h => h ▸ trimsTo_trim s, trim_of_trimsTo⟩

theorem firstLine_append (hs : '\n' ∉ s) (ht : EndsLine t) : firstLine (s ++ t) = s := by
  have hline (c : Char) (hc : c ∈ s) : (c != '\n') = true := bne_iff_ne.2 fun he => hs (he ▸ hc)
  have hrest : t.takeWhile (· != '\n') = [] := by
    cases t with
    | nil => rfl
    | cons c t =>
      obtain rfl : c = '\n' := by simpa [EndsLine] using ht
      rfl
  rw [firstLine, List.takeWhile_append_of_pos hline, hrest, List.append_nil]

theorem exists_firstLine (s : List Char) :
    ∃ rest, s = firstLine s ++ rest ∧ '\n' ∉ firstLine s ∧ EndsLine rest := by
  refine ⟨s.dropWhile (· != '\n'), List.takeWhile_append_dropWhile.symm, fun h => ?_, ?_⟩
  · simpa using List.mem_takeWhile_imp h
  · cases hrest : s.dropWhile (· != '\n') with
    | nil => exact .inl rfl
    | cons c rest =>
      have hfirst := List.head?_dropWhile_not (· != '\n') s
      rw [hrest] at hfirst
      exact .inr (by simpa using hfirst)

end Text

namespace Smt

open Text

def lineRead (reply : String) : List Char := trim (firstLine (trimStart reply.toList))

/-- The first line of a reply that is not blank holds a word and nothing else. -/
def OpensWith (reply word : String) : Prop :=
  ∃ before after rest, reply.toList = before ++ word.toList ++ after ++ rest ∧
    Blank before ∧ Blank after ∧ '\n' ∉ after ∧ EndsLine rest

variable {reply word : String}

theorem lineRead_eq_iff (hne : word.toList ≠ []) (hword : ∀ c ∈ word.toList, isBlank c = false) :
    lineRead reply = word.toList ↔ OpensWith reply word := by
  constructor
  · intro h
    obtain ⟨before, hreply, hbefore⟩ := exists_trimStart reply.toList
    obtain ⟨rest, hline, hfeed, hrest⟩ := exists_firstLine (trimStart reply.toList)
    obtain ⟨before', after, hparts, hbefore', hafter⟩ := (trim_eq_iff.1 h).between
    refine ⟨before ++ before', after, rest, ?_, blank_append.2 ⟨hbefore, hbefore'⟩, hafter,
      fun hmem => hfeed ?_, hrest⟩
    · rw [hreply, hline, hparts]
      simp only [List.append_assoc]
    · rw [hparts]
      exact List.mem_append_right _ hmem
  · rintro ⟨before, after, rest, hreply, hbefore, hafter, hfeed, hrest⟩
    have hfirst : ∀ c ∈ (word.toList ++ (after ++ rest)).head?, isBlank c = false := by
      intro c hc
      rw [List.head?_append_of_ne_nil _ hne] at hc
      exact hword c (List.mem_of_mem_head? hc)
    -- a line feed is white space, so that the word has none
    have hfeed' : '\n' ∉ word.toList ++ after := fun hmem =>
      (List.mem_append.1 hmem).elim (fun h => absurd (hword _ h) (by decide)) hfeed
    rw [lineRead, hreply, List.append_assoc, List.append_assoc, trimStart_append_of_blank hbefore,
      trimStart_of_first hfirst, ← List.append_assoc, firstLine_append hfeed' hrest]
    exact trim_of_trimsTo ⟨⟨[], after, rfl, List.forall_mem_nil _, hafter⟩,
      fun c hc => hword c (List.mem_of_mem_head? hc),
      fun c hc => hword c (List.mem_of_mem_getLast? hc)⟩

theorem opens_sat_iff : OpensWith reply "sat" ↔ lineRead reply = "sat".toList :=
  (lineRead_eq_iff (by decide) (by simp [isBlank])).symm

theorem opens_unsat_iff : OpensWith reply "unsat" ↔ lineRead reply = "unsat".toList :=
  (lineRead_eq_iff (by decide) (by simp [isBlank])).symm

theorem not_opens_both : ¬(OpensWith reply "sat" ∧ OpensWith reply "unsat") := by
  rw [opens_sat_iff, opens_unsat_iff]
  exact fun h => absurd (h.1.symm.trans h.2) (by decide)

theorem ofReply_of_opens_sat (h : OpensWith reply "sat") : Answer.ofReply reply = .ok .sat :=
  if_pos (opens_sat_iff.1 h)

theorem ofReply_of_opens_unsat (h : OpensWith reply "unsat") :
    Answer.ofReply reply = .ok .unsat := by
  have hsat : ¬lineRead reply = "sat".toList := fun hs => not_opens_both ⟨opens_sat_iff.2 hs, h⟩
  exact (if_neg hsat).trans (if_pos (opens_unsat_iff.1 h))

theorem ofReply_of_not_opens (hsat : ¬OpensWith reply "sat")
    (hunsat : ¬OpensWith reply "unsat") :
    Answer.ofReply reply = .error (.unexpectedReply (String.ofList (trim reply.toList))) :=
  (if_neg fun h => hsat (opens_sat_iff.2 h)).trans (if_neg fun h => hunsat (opens_unsat_iff.2 h))

theorem answer_congr {reply reply' : String} (h : lineRead reply = lineRead reply') :
    (Answer.ofReply reply).toOption = (Answer.ofReply reply').toOption := by
  have hsat : OpensWith reply "sat" ↔ OpensWith reply' "sat" := by
    rw [opens_sat_iff, opens_sat_iff, h]
  have hunsat : OpensWith reply "unsat" ↔ OpensWith reply' "unsat" := by
    rw [opens_unsat_iff, opens_unsat_iff, h]
  by_cases hs : OpensWith reply "sat"
  · rw [ofReply_of_opens_sat hs, ofReply_of_opens_sat (hsat.1 hs)]
  · by_cases hu : OpensWith reply "unsat"
    · rw [ofReply_of_opens_unsat hu, ofReply_of_opens_unsat (hunsat.1 hu)]
    · rw [ofReply_of_not_opens hs hu,
        ofReply_of_not_opens (fun h => hs (hsat.2 h)) fun h => hu (hunsat.2 h)]
      rfl

theorem lineRead_append {before line rest : List Char} (hbefore : Blank before)
    (hline : ¬Blank line) (hfeed : '\n' ∉ line) (hrest : EndsLine rest) :
    lineRead (String.ofList (before ++ line ++ rest)) = trim line := by
  obtain ⟨w, hw, hblank⟩ := exists_trimStart line
  have hfeed' : '\n' ∉ trimStart line := fun h =>
    hfeed (hw ▸ List.mem_append_right _ h)
  rw [lineRead, String.toList_ofList, List.append_assoc, trimStart_append_of_blank hbefore,
    trimStart_append_of_not_blank hline, firstLine_append hfeed' hrest, trim, trim,
    trimStart_of_first (first_trimStart line)]

theorem ofReply_append_of_blank {w : String} (hw : Blank w.toList) (reply : String) :
    Answer.ofReply (w ++ reply) = Answer.ofReply reply := by
  have htrim : trimStart (w ++ reply).toList = trimStart reply.toList := by
    rw [String.toList_append, trimStart_append_of_blank hw]
  have hwhole : trim (w ++ reply).toList = trim reply.toList := congrArg trimEnd htrim
  rw [Answer.ofReply, Answer.ofReply, htrim, hwhole]

/--
A reply is `sat` or `unsat` if its first line that is not blank holds this word and nothing else,
and no reply is both. Any other reply is reported, without the white space around it. So neither
white space in front of a reply nor what follows its first line that is not blank changes the
answer.
-/
theorem reply_language (reply : String) :
    (Answer.ofReply reply = .ok .sat ↔ OpensWith reply "sat") ∧
    (Answer.ofReply reply = .ok .unsat ↔ OpensWith reply "unsat") ∧
    (∀ failure, Answer.ofReply reply = .error failure ↔
      ¬OpensWith reply "sat" ∧ ¬OpensWith reply "unsat" ∧
        ∃ text : String, TrimsTo reply.toList text.toList ∧ failure = .unexpectedReply text) ∧
    ¬(OpensWith reply "sat" ∧ OpensWith reply "unsat") ∧
    (∀ w : String, Blank w.toList → Answer.ofReply (w ++ reply) = Answer.ofReply reply) ∧
    ∀ before line rest rest' : List Char, reply.toList = before ++ line ++ rest →
      Blank before → ¬Blank line → '\n' ∉ line → EndsLine rest → EndsLine rest' →
      (Answer.ofReply (String.ofList (before ++ line ++ rest'))).toOption =
        (Answer.ofReply reply).toOption := by
  refine ⟨⟨fun h => ?_, ofReply_of_opens_sat⟩, ⟨fun h => ?_, ofReply_of_opens_unsat⟩,
    fun failure => ⟨fun h => ?_, ?_⟩, not_opens_both, fun w hw => ofReply_append_of_blank hw reply,
    fun before line rest rest' hreply hbefore hline hfeed hrest hrest' => answer_congr ?_⟩
  · by_contra hsat
    by_cases hunsat : OpensWith reply "unsat"
    · simp [ofReply_of_opens_unsat hunsat] at h
    · simp [ofReply_of_not_opens hsat hunsat] at h
  · by_contra hunsat
    by_cases hsat : OpensWith reply "sat"
    · simp [ofReply_of_opens_sat hsat] at h
    · simp [ofReply_of_not_opens hsat hunsat] at h
  · have hsat : ¬OpensWith reply "sat" := fun hs => by simp [ofReply_of_opens_sat hs] at h
    have hunsat : ¬OpensWith reply "unsat" := fun hs => by simp [ofReply_of_opens_unsat hs] at h
    refine ⟨hsat, hunsat, String.ofList (trim reply.toList), ?_, ?_⟩
    · rw [String.toList_ofList]
      exact trimsTo_trim _
    · exact Except.error.inj (h.symm.trans (ofReply_of_not_opens hsat hunsat))
  · rintro ⟨hsat, hunsat, text, htext, rfl⟩
    rw [ofReply_of_not_opens hsat hunsat, trim_of_trimsTo htext, String.ofList_toList]
  · rw [← String.ofList_toList (s := reply), hreply, lineRead_append hbefore hline hfeed hrest,
      lineRead_append hbefore hline hfeed hrest']

theorem reply_language_second_line :
    OpensWith "\u2028\n unsat\r\nsat" "unsat" ∧
    Answer.ofReply "\u2028\n unsat\r\nsat" = .ok .unsat ∧
    Answer.ofReply ("\x0b\n" ++ "\u2028\n unsat\r\nsat") = .ok .unsat ∧
    (Answer.ofReply "\u2028\n unsat\r").toOption = some .unsat := by
  have hopens : OpensWith "\u2028\n unsat\r\nsat" "unsat" :=
    ⟨['\u2028', '\n', ' '], ['\r'], ['\n', 's', 'a', 't'], by decide, by simp [Blank, isBlank],
      by simp [Blank, isBlank], by decide, .inr rfl⟩
  obtain ⟨-, hunsat, -, -, hfront, hbehind⟩ := reply_language "\u2028\n unsat\r\nsat"
  refine ⟨hopens, hunsat.2 hopens, ?_, ?_⟩
  · rw [hfront "\x0b\n" (by simp [Blank, isBlank]), hunsat.2 hopens]
  · have hline : ¬Blank "unsat\r".toList := fun h => absurd (h 'u' (by decide)) (by decide)
    have hcut := hbehind ['\u2028', '\n', ' '] "unsat\r".toList ['\n', 's', 'a', 't'] []
      (by decide) (by simp [Blank, isBlank]) hline (by decide) (.inr rfl) (.inl rfl)
    rw [hunsat.2 hopens] at hcut
    exact hcut

end Smt

end QueryContainment
