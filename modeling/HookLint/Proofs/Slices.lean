/-
Pieces of a text.

`slice?` cuts at byte offsets and checks them against the UTF-8 form of the text.
Whoever uses it thinks of the text as what stands before the piece, the piece, and
what stands after it.  `slice?_eq_some_iff` says that the two are the same, and the
rest of the file reads the piece of a longer text from the part it lies in.
-/
import HookLint.Text.Slice
import Mathlib.Data.List.Basic

namespace HookLint.Text

/-! ### Lengths -/

@[simp] theorem byteLength_empty : byteLength "" = 0 := rfl

@[simp] theorem byteLength_append (s t : String) :
    byteLength (s ++ t) = byteLength s + byteLength t :=
  String.utf8ByteSize_append

theorem byteLength_eq_zero {s : String} : byteLength s = 0 ↔ s = "" :=
  String.utf8ByteSize_eq_zero_iff

/-- The length of a list of characters written as a text. -/
def bytes (cs : List Char) : Nat := byteLength (String.ofList cs)

@[simp] theorem byteLength_ofList (cs : List Char) : byteLength (String.ofList cs) = bytes cs := rfl

@[simp] theorem bytes_nil : bytes [] = 0 := rfl

@[simp] theorem bytes_append (xs ys : List Char) : bytes (xs ++ ys) = bytes xs + bytes ys := by
  unfold bytes
  rw [String.ofList_append, byteLength_append]

@[simp] theorem bytes_cons (c : Char) (cs : List Char) : bytes (c :: cs) = c.utf8Size + bytes cs := by
  have hc : bytes [c] = c.utf8Size := by
    unfold bytes byteLength
    rw [← String.singleton_eq_ofList, String.utf8ByteSize_singleton]
  rw [← List.singleton_append, bytes_append, hc]

theorem bytes_pos {cs : List Char} (h : cs ≠ []) : 0 < bytes cs := by
  obtain ⟨c, cs, rfl⟩ := List.exists_cons_of_ne_nil h
  rw [bytes_cons]
  have := c.utf8Size_pos
  omega

/-- Of two ways to cut a text in two, the one that cuts earlier leaves a middle piece. -/
theorem append_eq_append_of_le {s t u v : String} (h : s ++ t = u ++ v)
    (hle : byteLength s ≤ byteLength u) : ∃ w, u = s ++ w ∧ t = w ++ v := by
  have hlist : s.toList ++ t.toList = u.toList ++ v.toList := by
    rw [← String.toList_append, h, String.toList_append]
  rcases List.append_eq_append_iff.mp hlist with ⟨w, hu, ht⟩ | ⟨w, hs, hv⟩
  · refine ⟨String.ofList w, ?_, ?_⟩
    · apply String.toList_inj.mp; simpa using hu
    · apply String.toList_inj.mp; simpa using ht
  · have hs' : s = u ++ String.ofList w := by apply String.toList_inj.mp; simpa using hs
    have hw : String.ofList w = "" := by
      rw [← byteLength_eq_zero]
      rw [hs', byteLength_append] at hle
      omega
    refine ⟨"", by rw [hs', hw]; simp, ?_⟩
    apply String.toList_inj.mp
    rw [String.ofList_eq_empty_iff] at hw
    simpa [hw] using hv.symm

/-! ### Offsets -/

theorem pos?_eq_some_iff {s : String} {offset : Nat} {p : s.Pos} :
    s.pos? ⟨offset⟩ = some p ↔ p.offset = ⟨offset⟩ := by
  unfold String.pos? String.Slice.pos?
  constructor
  · intro h
    split at h
    · simp only [Option.map_some, Option.some.injEq] at h
      rw [← h]; rfl
    · simp at h
  · intro h
    have hv : (⟨offset⟩ : String.Pos.Raw).IsValidForSlice s.toSlice := h ▸ p.isValid.toSlice
    rw [dif_pos (String.Pos.Raw.isValidForSlice_eq_true_iff.mpr hv)]
    simp only [Option.map_some, Option.some.injEq]
    exact String.Pos.ext h.symm

/-- The places a text can be cut at are the lengths of the pieces it starts with. -/
theorem isBoundary_iff {s : String} {offset : Nat} :
    isBoundary s offset = true ↔ ∃ u v, s = u ++ v ∧ byteLength u = offset := by
  unfold isBoundary
  rw [Option.isSome_iff_exists]
  constructor
  · rintro ⟨p, hp⟩
    rw [pos?_eq_some_iff] at hp
    obtain ⟨u, v, hs, hu⟩ := String.Pos.Raw.isValid_iff_exists_append.mp p.isValid
    exact ⟨u, v, hs, by rw [hp] at hu; exact congrArg String.Pos.Raw.byteIdx hu.symm⟩
  · rintro ⟨u, v, hs, hu⟩
    have hv : (⟨offset⟩ : String.Pos.Raw).IsValid s :=
      String.Pos.Raw.isValid_iff_exists_append.mpr ⟨u, v, hs, congrArg _ hu.symm⟩
    exact ⟨s.pos _ hv, pos?_eq_some_iff.mpr rfl⟩

theorem isBoundary_zero (s : String) : isBoundary s 0 = true :=
  isBoundary_iff.mpr ⟨"", s, by simp, rfl⟩

theorem isBoundary_byteLength (s : String) : isBoundary s (byteLength s) = true :=
  isBoundary_iff.mpr ⟨s, "", by simp, rfl⟩

theorem le_byteLength_of_isBoundary {s : String} {offset : Nat} (h : isBoundary s offset = true) :
    offset ≤ byteLength s := by
  obtain ⟨u, v, rfl, rfl⟩ := isBoundary_iff.mp h
  rw [byteLength_append]
  omega

/-! ### Pieces -/

theorem extract_append (u t v : String) {b e : (u ++ t ++ v).Pos}
    (hb : b.offset = ⟨byteLength u⟩) (he : e.offset = ⟨byteLength u + byteLength t⟩) :
    (u ++ t ++ v).extract b e = t := by
  apply String.toByteArray_inj.mp
  rw [String.toByteArray_extract, hb, he]
  simp only [String.toByteArray_append, ByteArray.append_assoc]
  have hu : byteLength u = u.toByteArray.size := rfl
  have ht : byteLength t = t.toByteArray.size := rfl
  rw [hu, ht, ← Nat.add_zero u.toByteArray.size, Nat.add_assoc,
    ByteArray.extract_append_size_add, Nat.zero_add, ByteArray.extract_append_eq_left rfl]

/-- A piece is what is left of a text without what stands before and after it. -/
theorem slice?_eq_some_iff {s t : String} {start stop : Nat} :
    slice? s start stop = some t ↔
      ∃ u v, s = u ++ t ++ v ∧ byteLength u = start ∧ byteLength u + byteLength t = stop := by
  have hpos (o : Nat) (h : isBoundary s o = true) : ∃ p, s.pos? ⟨o⟩ = some p :=
    Option.isSome_iff_exists.mp h
  constructor
  · intro h
    unfold slice? at h
    split at h
    · rename_i hle
      split at h
      · rename_i b e hb he
        have hbs : isBoundary s start = true := by rw [isBoundary, hb]; rfl
        have hbe : isBoundary s stop = true := by rw [isBoundary, he]; rfl
        obtain ⟨u, v, hs, hu⟩ := isBoundary_iff.mp hbs
        obtain ⟨u', v', hs', hu'⟩ := isBoundary_iff.mp hbe
        obtain ⟨w, rfl, rfl⟩ := append_eq_append_of_le (hs.symm.trans hs') (by omega)
        subst hs'
        rw [byteLength_append] at hu'
        rw [pos?_eq_some_iff] at hb he
        have hw := extract_append u w v' (by rw [hb, hu]) (by rw [he, hu'])
        rw [Option.some.injEq, hw] at h
        exact ⟨u, v', by rw [h], hu, by rw [← h, hu']⟩
      · contradiction
    · contradiction
  · rintro ⟨u, v, rfl, rfl, rfl⟩
    obtain ⟨b, hb⟩ := hpos (byteLength u)
      (isBoundary_iff.mpr ⟨u, t ++ v, by rw [String.append_assoc], rfl⟩)
    obtain ⟨e, he⟩ := hpos (byteLength u + byteLength t)
      (isBoundary_iff.mpr ⟨u ++ t, v, rfl, byteLength_append u t⟩)
    unfold slice?
    rw [if_pos (Nat.le_add_right _ _), hb, he]
    rw [pos?_eq_some_iff] at hb he
    exact congrArg some (extract_append u t v hb he)

theorem le_of_slice? {s t : String} {start stop : Nat} (h : slice? s start stop = some t) :
    start ≤ stop := by
  obtain ⟨u, v, -, hu, hlen⟩ := slice?_eq_some_iff.mp h
  omega

theorem isBoundary_start {s t : String} {start stop : Nat} (h : slice? s start stop = some t) :
    isBoundary s start = true := by
  obtain ⟨u, v, hs, hu, -⟩ := slice?_eq_some_iff.mp h
  exact isBoundary_iff.mpr ⟨u, t ++ v, by rw [hs, String.append_assoc], hu⟩

theorem isBoundary_stop {s t : String} {start stop : Nat} (h : slice? s start stop = some t) :
    isBoundary s stop = true := by
  obtain ⟨u, v, hs, -, hlen⟩ := slice?_eq_some_iff.mp h
  exact isBoundary_iff.mpr ⟨u ++ t, v, hs, by rw [byteLength_append, hlen]⟩

/-- What lies between two places a text can be cut at is a piece of it. -/
theorem exists_slice? {s : String} {start stop : Nat} (hle : start ≤ stop)
    (hstart : isBoundary s start = true) (hstop : isBoundary s stop = true) :
    ∃ t, slice? s start stop = some t := by
  obtain ⟨b, hb⟩ := Option.isSome_iff_exists.mp hstart
  obtain ⟨e, he⟩ := Option.isSome_iff_exists.mp hstop
  exact ⟨s.extract b e, by rw [slice?, if_pos hle, hb, he]⟩

/-- Two pieces of which one starts where the other ends are one piece. -/
theorem slice?_join {s t t' : String} {start middle stop : Nat}
    (h : slice? s start middle = some t) (h' : slice? s middle stop = some t') :
    slice? s start stop = some (t ++ t') := by
  obtain ⟨u, v, rfl, rfl, rfl⟩ := slice?_eq_some_iff.mp h
  obtain ⟨u', v', heq, hu', rfl⟩ := slice?_eq_some_iff.mp h'
  obtain ⟨w, rfl, rfl⟩ := append_eq_append_of_le (heq.trans String.append_assoc)
    (by rw [byteLength_append]; omega)
  have hw : w = "" := by
    rw [byteLength_append, byteLength_append] at hu'
    exact byteLength_eq_zero.mp (by omega)
  subst hw
  refine slice?_eq_some_iff.mpr ⟨u, v', ?_, rfl, ?_⟩
  · simp [String.append_assoc]
  · simp only [byteLength_append, byteLength_empty]
    omega

theorem slice?_append (u t v : String) :
    slice? (u ++ t ++ v) (byteLength u) (byteLength u + byteLength t) = some t :=
  slice?_eq_some_iff.mpr ⟨u, v, rfl, rfl, rfl⟩

theorem slice?_self (s : String) : slice? s 0 (byteLength s) = some s :=
  slice?_eq_some_iff.mpr ⟨"", "", by simp, rfl, by simp⟩

theorem sliceFrom?_append (u t : String) : sliceFrom? (u ++ t) (byteLength u) = some t :=
  slice?_eq_some_iff.mpr ⟨u, "", by simp, rfl, (byteLength_append u t).symm⟩

/-! ### The part a piece lies in -/

theorem slice?_append_left {u v : String} {start stop : Nat} (h : stop ≤ byteLength u) :
    slice? (u ++ v) start stop = slice? u start stop := by
  refine Option.ext fun t => ?_
  rw [slice?_eq_some_iff, slice?_eq_some_iff]
  constructor
  · rintro ⟨p, q, heq, hstart, hstop⟩
    have hle : byteLength (p ++ t) ≤ byteLength u := by
      rw [byteLength_append]
      omega
    obtain ⟨w, hu, -⟩ := append_eq_append_of_le heq.symm hle
    exact ⟨p, w, hu, hstart, hstop⟩
  · rintro ⟨p, q, rfl, hstart, hstop⟩
    exact ⟨p, q ++ v, by rw [String.append_assoc], hstart, hstop⟩

theorem slice?_append_right {u v : String} {start stop : Nat} (h : byteLength u ≤ start)
    (hle : start ≤ stop) :
    slice? (u ++ v) start stop = slice? v (start - byteLength u) (stop - byteLength u) := by
  refine Option.ext fun t => ?_
  rw [slice?_eq_some_iff, slice?_eq_some_iff]
  constructor
  · rintro ⟨p, q, heq, rfl, hstop⟩
    rw [String.append_assoc] at heq
    obtain ⟨w, rfl, rfl⟩ := append_eq_append_of_le heq h
    rw [byteLength_append] at hstop ⊢
    exact ⟨w, q, by rw [String.append_assoc], by omega, by omega⟩
  · rintro ⟨p, q, rfl, hstart, hstop⟩
    refine ⟨u ++ p, q, ?_, ?_, ?_⟩
    · simp only [String.append_assoc]
    · rw [byteLength_append]
      omega
    · rw [byteLength_append]
      omega

/-- A piece of a piece is a piece of the whole text. -/
theorem slice?_slice? {s t : String} {first last start stop : Nat}
    (h : slice? s first last = some t) (hfirst : first ≤ start) (hle : start ≤ stop)
    (hlast : stop ≤ last) : slice? t (start - first) (stop - first) = slice? s start stop := by
  obtain ⟨u, v, rfl, rfl, rfl⟩ := slice?_eq_some_iff.mp h
  rw [slice?_append_left (by rw [byteLength_append]; omega), slice?_append_right hfirst hle]

end HookLint.Text
