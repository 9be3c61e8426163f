import Mathlib.Data.List.Basic
import QueryContainment.Rdf.IriReference

namespace QueryContainment.IriReference

variable {c : Char} {s text scheme : List Char}

theorem append_cut (c : Char) (s : List Char) :
    (cut c s).1 ++ (cut c s).2.elim [] (c :: ·) = s := by
  have hall : s.takeWhile (· != c) ++ s.dropWhile (· != c) = s := List.takeWhile_append_dropWhile
  unfold cut
  split
  · next d rest hrest =>
    have hfirst := List.head?_dropWhile_not (· != c) s
    rw [hrest] at hfirst
    obtain rfl : d = c := by simpa using hfirst
    rwa [hrest] at hall
  · exact List.append_nil s

theorem append_cutScheme (s : List Char) :
    (cutScheme s).1.elim [] (· ++ [':']) ++ (cutScheme s).2 = s := by
  have hcut := append_cut ':' s
  unfold cutScheme
  split
  · next front rest heq =>
    rw [heq] at hcut
    split
    · simpa using hcut
    · rfl
  · rfl

theorem isScheme_of_cutScheme (h : (cutScheme s).1 = some scheme) : isScheme scheme := by
  unfold cutScheme at h
  split at h
  · split at h
    · next hscheme =>
      obtain rfl := Option.some.inj h
      exact hscheme
    · cases h
  · cases h

theorem toChars_ofChars (s : List Char) : (ofChars s).toChars = s := by
  have hfragment := append_cut '#' s
  have hquery := append_cut '?' (cut '#' s).1
  have hscheme := append_cutScheme (cut '?' (cut '#' s).1).1
  have hall : (ofChars s).toChars =
      (cutScheme (cut '?' (cut '#' s).1).1).1.elim [] (· ++ [':']) ++
        (cutScheme (cut '?' (cut '#' s).1).1).2 ++ (cut '?' (cut '#' s).1).2.elim [] ('?' :: ·) ++
          (cut '#' s).2.elim [] ('#' :: ·) := by
    simp only [ofChars]
    split
    · next rest heq =>
      rw [heq]
      simp [toChars, List.takeWhile_append_dropWhile]
    · simp [toChars]
  rw [hall, hscheme, hquery, hfragment]

theorem isScheme_of_ofChars (h : (ofChars s).scheme = some scheme) : isScheme scheme := by
  simp only [ofChars] at h
  split at h
  · exact isScheme_of_cutScheme h
  · exact isScheme_of_cutScheme h

theorem scheme_of_resolve {base r resolved : IriReference} (h : resolve base r = some resolved) :
    resolved.scheme = r.scheme.or base.scheme := by
  unfold resolve at h
  cases hr : r.scheme with
  | some scheme =>
    obtain rfl : r = resolved := by simpa [hr] using h
    rw [hr, Option.some_or]
  | none =>
    rw [hr, if_neg (by simp)] at h
    split at h
    · rw [← Option.some.inj h, Option.none_or]
    split at h
    · rw [← Option.some.inj h, Option.none_or]
    · obtain ⟨path, -, rfl⟩ := Option.map_eq_some_iff.1 h
      rw [Option.none_or]

theorem absolute?_of_scheme (base : Option String) (hscheme : (ofChars text).scheme.isSome)
    (hvalid : (ofChars text).isValid) : absolute? base text = some (String.ofList text) := by
  have hresolve (b : IriReference) : resolve b (ofChars text) = some (ofChars text) := by
    rw [resolve, if_pos hscheme]
  unfold absolute?
  cases base with
  | none => simp [hvalid, hscheme, toChars_ofChars]
  | some b => simp [hresolve, hvalid, hscheme, toChars_ofChars]

theorem isScheme_of_resolve {base : List Char} {resolved : IriReference}
    (h : resolve (ofChars base) (ofChars text) = some resolved)
    (hs : resolved.scheme = some scheme) : isScheme scheme := by
  rw [scheme_of_resolve h] at hs
  rcases Option.or_eq_some_iff.1 hs with hs | ⟨-, hs⟩
  · exact isScheme_of_ofChars hs
  · exact isScheme_of_ofChars hs

/-- Every IRI that a text stands for begins with a scheme. -/
theorem exists_scheme_of_absolute? {base : Option String} {iri : String}
    (h : absolute? base text = some iri) :
    ∃ scheme rest, iri.toList = scheme ++ ':' :: rest ∧ isScheme scheme := by
  have hwritten (r : IriReference) (hr : ∀ scheme, r.scheme = some scheme → isScheme scheme)
      (hwrite : (if (ofChars text).isValid && r.scheme.isSome then some (String.ofList r.toChars)
        else none) = some iri) :
      ∃ scheme rest, iri.toList = scheme ++ ':' :: rest ∧ isScheme scheme := by
    split at hwrite
    · next hok =>
      obtain ⟨scheme, hs⟩ := Option.isSome_iff_exists.1 (Bool.and_eq_true _ _ ▸ hok).2
      obtain rfl := Option.some.inj hwrite
      refine ⟨scheme, r.authority.elim [] (['/', '/'] ++ ·) ++ r.path ++
        r.query.elim [] ('?' :: ·) ++ r.fragment.elim [] ('#' :: ·), ?_, hr scheme hs⟩
      simp [toChars, hs]
    · cases hwrite
  unfold absolute? at h
  cases base with
  | none => exact hwritten _ (fun _ => isScheme_of_ofChars) h
  | some base =>
    obtain ⟨resolved, hresolved, h⟩ := Option.bind_eq_some_iff.1 h
    exact hwritten resolved (fun _ => isScheme_of_resolve hresolved) h

end QueryContainment.IriReference
