import Formula.Proofs.Symbols
import Mathlib.Data.List.Induction

/-!
Which bindings make a symbol table, and what is wrong with those that make none.

Names are looked at in two orders. What a name is made of, and how many there are, counts in the
order given; that a name is bound twice is found when the longer names have been put first. Which
bindings are accepted and which error the others give is said of the names alone, and either is the
case (`accepts_or_rejects`).
-/

namespace Formula

variable {σ : Type}

/-- The text can be a name: it is a word, and not too long. -/
def IsName (t : Text) : Prop := isWord t ∧ byteLength t ≤ maxNameLength

instance (t : Text) : Decidable (IsName t) := inferInstanceAs (Decidable (_ ∧ _))

/-- What is wrong with a text that cannot be a name. -/
inductive NameFault.Of : Text → NameFault → Prop
  | empty : NameFault.Of [] .empty
  | notWord {t : Text} : t ≠ [] → ¬isWord t → NameFault.Of t .notWord
  | tooLong {t : Text} : isWord t → maxNameLength < byteLength t → NameFault.Of t .tooLong

/-- The longer texts come first, and texts of one length in the order given. -/
def LongestFirst (given sorted : List Text) : Prop :=
  sorted.Pairwise (fun a b => byteLength b ≤ byteLength a) ∧
    ∀ n, sorted.filter (byteLength · = n) = given.filter (byteLength · = n)

/-- Only the lengths that there are need to be looked at. -/
instance (given sorted : List Text) : Decidable (LongestFirst given sorted) :=
  decidable_of_iff (sorted.Pairwise (fun a b => byteLength b ≤ byteLength a) ∧
      ∀ n ∈ (given ++ sorted).map byteLength,
        sorted.filter (byteLength · = n) = given.filter (byteLength · = n)) <| by
    refine and_congr_right fun _ => ⟨fun h n => ?_, fun h n _ => h n⟩
    by_cases hn : n ∈ (given ++ sorted).map byteLength
    · exact h n hn
    · have hnone (l : List Text) (hl : l ⊆ given ++ sorted) : l.filter (byteLength · = n) = [] :=
        List.filter_eq_nil_iff.2 fun a ha hlen =>
          hn (of_decide_eq_true hlen ▸ List.mem_map_of_mem (hl ha))
      rw [hnone sorted (List.subset_append_right _ _), hnone given (List.subset_append_left _ _)]

/-- What a name is bound to in a table whose next slot is given, and the slot after it. -/
def Referent.kindAt (slot : ℕ) : Referent σ → Symbol.Kind σ × ℕ
  | .variable v => (.variable v slot, slot + 1)
  | .function f => (.function f, slot)

/-- The names that are bound, without the blanks around them. -/
def bindingNames (bs : List (Binding σ)) : List Text := bs.map fun b => trim b.name

namespace SymbolTable

/-- Names that make a table. -/
def Accepts (names : List Text) : Prop :=
  names.length ≤ maxBindings ∧ (∀ n ∈ names, IsName n) ∧ names.Nodup

/-- What is wrong with texts that make no table. The first that cannot be a name counts, if it is
among as many as may be bound. If there is none and there are more texts it counts that there are,
whatever they are. Else a name is there twice, and the one counts of which a second one comes first
when the longer names come first. -/
inductive Rejects (names : List Text) : Error → Prop
  | name {us vs : List Text} {n : Text} {f : NameFault} : names = us ++ n :: vs →
      us.length < maxBindings → (∀ u ∈ us, IsName u) → NameFault.Of n f →
      Rejects names (.badName n f)
  | full : maxBindings < names.length → (∀ n ∈ names.take maxBindings, IsName n) →
      Rejects names (.full .bindings)
  | duplicate {us vs : List Text} {n : Text} : names.length ≤ maxBindings →
      (∀ n ∈ names, IsName n) → LongestFirst names (us ++ n :: vs) → us.Nodup → n ∈ us →
      Rejects names (.badName n .duplicate)

end SymbolTable

/-! ### One name -/

lemma exists_nameFault {t : Text} (h : ¬IsName t) : ∃ f, NameFault.Of t f := by
  by_cases hempty : t = []
  · exact ⟨.empty, hempty ▸ .empty⟩
  · by_cases hword : isWord t
    · exact ⟨_, .tooLong hword (Nat.lt_of_not_le fun hle => h ⟨hword, hle⟩)⟩
    · exact ⟨_, .notWord hempty hword⟩

namespace Name

variable {raw : Text}

lemma ofText_of_isName (h : IsName (trim raw)) : ∃ n, ofText raw = .ok n ∧ n.text = trim raw := by
  obtain ⟨hword, hlength⟩ := h
  have hne : trim raw ≠ [] := by
    intro hnil
    rw [hnil] at hword
    cases hword
  refine ⟨⟨trim raw, hword, hlength⟩, ?_, rfl⟩
  unfold ofText
  simp only [if_neg hne, dif_pos hword, dif_pos hlength]

lemma ofText_of_fault {f : NameFault} (h : NameFault.Of (trim raw) f) :
    ofText raw = .error (.badName (trim raw) f) := by
  unfold ofText
  generalize trim raw = t at h ⊢
  cases h with
  | empty => rfl
  | notWord hne hnot => simp only [if_neg hne, dif_neg hnot]
  | tooLong hword hlong =>
    have hne : t ≠ [] := by
      rintro rfl
      cases hword
    simp only [if_neg hne, dif_pos hword, dif_neg (Nat.not_le.2 hlong)]

end Name

/-! ### The order of the names -/

def longerText (a b : Text) : Bool := byteLength b ≤ byteLength a

/-- What is sorted by a key, the greatest first, has the elements of one key in the order given. -/
lemma mergeSort_byKey {α : Type} (key : α → ℕ) (l : List α) :
    (l.mergeSort fun a b => key b ≤ key a).Pairwise (fun a b => key b ≤ key a) ∧
      ∀ n, (l.mergeSort fun a b => key b ≤ key a).filter (key · = n) = l.filter (key · = n) := by
  have htrans (a b c : α) : decide (key b ≤ key a) → decide (key c ≤ key b) →
      decide (key c ≤ key a) := by
    simp only [decide_eq_true_eq]
    omega
  have htotal (a b : α) : decide (key b ≤ key a) || decide (key a ≤ key b) := by
    simp only [Bool.or_eq_true, decide_eq_true_eq]
    omega
  refine ⟨(List.pairwise_mergeSort htrans htotal l).imp of_decide_eq_true, fun n => ?_⟩
  -- elements of one key are sorted, so they are found in this order in what is sorted
  have hsorted : (l.filter (key · = n)).Pairwise fun a b => decide (key b ≤ key a) := by
    refine List.pairwise_of_forall_mem_list fun a ha b hb => decide_eq_true ?_
    have hka := of_decide_eq_true (List.mem_filter.1 ha).2
    have hkb := of_decide_eq_true (List.mem_filter.1 hb).2
    omega
  have hsub := (List.sublist_mergeSort htrans htotal hsorted List.filter_sublist).filter
    (key · = n)
  simp only [List.filter_filter, Bool.and_self] at hsub
  refine (hsub.eq_of_length ?_).symm
  exact ((List.mergeSort_perm l _).filter _).length_eq.symm

lemma longestFirst_mergeSort (names : List Text) :
    LongestFirst names (names.mergeSort longerText) :=
  mergeSort_byKey byteLength names

/-- Lists in which the longer texts come first are the same if they have the same texts of each
length in the same order. -/
lemma eq_of_filter_byteLength {l l' : List Text}
    (hl : l.Pairwise fun a b => byteLength b ≤ byteLength a)
    (hl' : l'.Pairwise fun a b => byteLength b ≤ byteLength a)
    (h : ∀ n, l.filter (byteLength · = n) = l'.filter (byteLength · = n)) : l = l' := by
  induction l generalizing l' with
  | nil =>
    cases l' with
    | nil => rfl
    | cons b l' => simpa using h (byteLength b)
  | cons a l ih =>
    cases l' with
    | nil => simpa using h (byteLength a)
    | cons b l' =>
      have hmem (t : Text) : t ∈ a :: l ↔ t ∈ b :: l' := by
        have ht := congrArg (t ∈ ·) (h (byteLength t))
        simpa using ht
      have hle {c x : Text} {cs : List Text}
          (hcs : (c :: cs).Pairwise fun a b => byteLength b ≤ byteLength a) (hx : x ∈ c :: cs) :
          byteLength x ≤ byteLength c := by
        rcases List.mem_cons.1 hx with rfl | hx
        · exact Nat.le_refl _
        · exact (List.pairwise_cons.1 hcs).1 x hx
      have hlen : byteLength b = byteLength a := Nat.le_antisymm
        (hle hl ((hmem b).2 List.mem_cons_self)) (hle hl' ((hmem a).1 List.mem_cons_self))
      have hhead := h (byteLength a)
      rw [List.filter_cons_of_pos (by simp), List.filter_cons_of_pos (by simpa using hlen)] at hhead
      obtain ⟨rfl, -⟩ := List.cons.inj hhead
      refine congrArg (a :: ·) (ih (List.pairwise_cons.1 hl).2 (List.pairwise_cons.1 hl').2 ?_)
      intro n
      have hn := h n
      by_cases hna : byteLength a = n
      · rw [List.filter_cons_of_pos (by simpa using hna),
          List.filter_cons_of_pos (by simpa using hna)] at hn
        exact (List.cons.inj hn).2
      · rwa [List.filter_cons_of_neg (by simpa using hna),
          List.filter_cons_of_neg (by simpa using hna)] at hn

namespace LongestFirst

variable {given sorted sorted' : List Text}

lemma unique (h : LongestFirst given sorted) (h' : LongestFirst given sorted') :
    sorted = sorted' :=
  eq_of_filter_byteLength h.1 h'.1 fun n => (h.2 n).trans (h'.2 n).symm

end LongestFirst

/-! ### The first of a kind -/

/-- Either all can be names or there is a first that cannot. -/
lemma isName_or_exists_first (l : List Text) :
    (∀ n ∈ l, IsName n) ∨ ∃ us n vs, l = us ++ n :: vs ∧ (∀ u ∈ us, IsName u) ∧ ¬IsName n := by
  rcases hfind : l.find? fun n => ¬IsName n with _ | n
  · exact .inl fun n hn => by simpa using List.find?_eq_none.1 hfind n hn
  · obtain ⟨hn, us, vs, hl, hus⟩ := List.find?_eq_some_iff_append.1 hfind
    exact .inr ⟨us, n, vs, hl, fun u hu => by simpa using hus u hu, of_decide_eq_true hn⟩

/-- Either all are different or there is a first that was there before. -/
lemma nodup_or_exists_first {α : Type} (l : List α) :
    l.Nodup ∨ ∃ us a vs, l = us ++ a :: vs ∧ us.Nodup ∧ a ∈ us := by
  induction l using List.reverseRecOn with
  | nil => exact .inl List.nodup_nil
  | append_singleton l a ih =>
    rcases ih with hl | ⟨us, b, vs, rfl, hus, hb⟩
    · by_cases ha : a ∈ l
      · exact .inr ⟨l, a, [], rfl, hl, ha⟩
      · refine .inl (List.nodup_append.2 ⟨hl, List.nodup_singleton a, ?_⟩)
        intro b hb c hc
        rw [List.mem_singleton.1 hc]
        rintro rfl
        exact ha hb
    · exact .inr ⟨us, b, vs ++ [a], by simp, hus, hb⟩

namespace SymbolTable

/-- Names are accepted or something is wrong with them. -/
theorem accepts_or_rejects (names : List Text) :
    Accepts names ∨ ∃ err, Rejects names err := by
  rcases isName_or_exists_first (names.take maxBindings) with hall | hbad
  · rcases Nat.lt_or_ge maxBindings names.length with hlong | hlength
    · exact .inr ⟨_, .full hlong hall⟩
    · rw [List.take_of_length_le hlength] at hall
      have hsorted := longestFirst_mergeSort names
      rcases nodup_or_exists_first (names.mergeSort longerText) with hnodup | hdup
      · exact .inl ⟨hlength, hall, (List.mergeSort_perm names longerText).nodup_iff.1 hnodup⟩
      · obtain ⟨us, n, vs, hsplit, hus, hn⟩ := hdup
        rw [hsplit] at hsorted
        exact .inr ⟨_, .duplicate hlength hall hsorted hus hn⟩
  · obtain ⟨us, n, vs, hsplit, hus, hn⟩ := hbad
    obtain ⟨f, hf⟩ := exists_nameFault hn
    have hlen := congrArg List.length hsplit
    rw [List.length_take, List.length_append, List.length_cons] at hlen
    have hnames : names = us ++ n :: (vs ++ names.drop maxBindings) := by
      rw [← List.cons_append, ← List.append_assoc, ← hsplit, List.take_append_drop]
    exact .inr ⟨_, .name hnames (by omega) hus hf⟩

/-! ### Reading the names -/

variable {bs : List (Binding σ)} {room : ℕ}

lemma readNames_eq_ok (hroom : bs.length ≤ room) (h : ∀ n ∈ bindingNames bs, IsName n) :
    ∃ names, readNames room bs = .ok names ∧
      names.map (fun nr => nr.1.text) = bindingNames bs := by
  induction bs generalizing room with
  | nil => exact ⟨[], by cases room <;> rfl, rfl⟩
  | cons b bs ih =>
    obtain ⟨hb, hbs⟩ := List.forall_mem_cons.1 h
    cases room with
    | zero => simp at hroom
    | succ room =>
      obtain ⟨n, hn, htext⟩ := Name.ofText_of_isName hb
      obtain ⟨names, hnames, htexts⟩ := ih (Nat.le_of_succ_le_succ hroom) hbs
      refine ⟨(n, b.referent) :: names, ?_, ?_⟩
      · rw [readNames, hn, hnames]
        rfl
      · rw [List.map_cons, htexts, htext]
        rfl

/-- The first text that cannot be a name is the error, if there is room for what comes before. -/
lemma readNames_eq_badName {us vs : List Text} {n : Text} {f : NameFault}
    (hbs : bindingNames bs = us ++ n :: vs) (hroom : us.length < room) (hus : ∀ u ∈ us, IsName u)
    (hf : NameFault.Of n f) : readNames room bs = .error (.badName n f) := by
  induction us generalizing bs room with
  | nil =>
    obtain ⟨b, bs, rfl, rfl, -⟩ := List.map_eq_cons_iff.1 hbs
    cases room with
    | zero => cases hroom
    | succ room =>
      rw [readNames, Name.ofText_of_fault hf]
      rfl
  | cons u us ih =>
    obtain ⟨b, bs, rfl, rfl, hrest⟩ := List.map_eq_cons_iff.1 hbs
    obtain ⟨hu, hus⟩ := List.forall_mem_cons.1 hus
    cases room with
    | zero => cases hroom
    | succ room =>
      obtain ⟨m, hm, -⟩ := Name.ofText_of_isName hu
      rw [readNames, hm, ih hrest (Nat.lt_of_succ_lt_succ hroom) hus]
      rfl

lemma readNames_eq_full (hroom : room < bs.length)
    (h : ∀ n ∈ (bindingNames bs).take room, IsName n) :
    readNames room bs = .error (.full .bindings) := by
  induction bs generalizing room with
  | nil => cases hroom
  | cons b bs ih =>
    cases room with
    | zero => rfl
    | succ room =>
      obtain ⟨hb, hbs⟩ := List.forall_mem_cons.1 h
      obtain ⟨n, hn, -⟩ := Name.ofText_of_isName hb
      rw [readNames, hn, ih (Nat.lt_of_succ_lt_succ hroom) hbs]
      rfl

/-! ### Names that are bound twice -/

variable {names : List (Name × Referent σ)} {done : List (Symbol σ)} {slot : ℕ}

/-- The names of the table so far, as texts. -/
def labels (done : List (Symbol σ)) : List Text := done.map fun s => s.name.text

lemma any_name_iff {n : Name} : done.any (·.name = n) = true ↔ n.text ∈ labels done := by
  rw [List.any_eq_true, labels, List.mem_map]
  constructor
  · rintro ⟨s, hs, hn⟩
    exact ⟨s, hs, congrArg Name.text (of_decide_eq_true hn)⟩
  · rintro ⟨s, hs, hn⟩
    exact ⟨s, hs, decide_eq_true (Name.ext hn)⟩

/-- A name that is new is bound and the others are numbered. -/
lemma number_cons {n : Name} {r : Referent σ} (hn : n.text ∉ labels done) :
    number done slot ((n, r) :: names) =
      number (⟨n, (r.kindAt slot).1⟩ :: done) (r.kindAt slot).2 names := by
  have hany : ¬done.any (·.name = n) = true := fun h => hn (any_name_iff.1 h)
  cases r with
  | «variable» v =>
    rw [number, if_neg hany]
    rfl
  | function f =>
    rw [number, if_neg hany]
    rfl

/-- A name that is there is an error. -/
lemma number_cons_of_mem {n : Name} {r : Referent σ} (hn : n.text ∈ labels done) :
    number done slot ((n, r) :: names) = .error (.badName n.text .duplicate) := by
  unfold number
  rw [if_pos (any_name_iff.2 hn)]

/-- Different names are all bound. -/
lemma number_eq_ok (hnodup : (labels done ++ names.map fun nr => nr.1.text).Nodup) :
    ∃ t, number done slot names = .ok t := by
  induction names generalizing done slot with
  | nil => exact ⟨_, rfl⟩
  | cons nr names ih =>
    rw [List.map_cons, List.nodup_middle] at hnodup
    have hnew := fun h => (List.nodup_cons.1 hnodup).1 (List.mem_append_left _ h)
    rw [number_cons hnew]
    exact ih hnodup

/-- The first name that was there before is the error. -/
lemma number_eq_duplicate {us vs : List Text} {n : Text}
    (hnames : names.map (fun nr => nr.1.text) = us ++ n :: vs) (hnodup : (labels done ++ us).Nodup)
    (hn : n ∈ labels done ++ us) : number done slot names = .error (.badName n .duplicate) := by
  induction us generalizing done slot names with
  | nil =>
    obtain ⟨nr, names, rfl, rfl, -⟩ := List.map_eq_cons_iff.1 hnames
    rw [List.append_nil] at hn
    exact number_cons_of_mem hn
  | cons u us ih =>
    obtain ⟨nr, names, rfl, rfl, hrest⟩ := List.map_eq_cons_iff.1 hnames
    rw [List.nodup_middle] at hnodup
    have hnew := fun h => (List.nodup_cons.1 hnodup).1 (List.mem_append_left _ h)
    rw [number_cons hnew]
    exact ih hrest hnodup (List.perm_middle.mem_iff.1 hn)

/-- The names are numbered or one of them is there twice. -/
lemma number_cases_nodup (names : List (Name × Referent σ)) :
    (∃ t, number [] 0 names = .ok t) ∨ ∃ n, number [] 0 names = .error (.badName n .duplicate) := by
  rcases nodup_or_exists_first (names.map fun nr => nr.1.text) with hnodup | ⟨us, n, vs, h, hus, hn⟩
  · exact .inl (number_eq_ok hnodup)
  · exact .inr ⟨n, number_eq_duplicate h hus hn⟩

/-! ### Tables -/

/-- The names in the order in which they are numbered. -/
lemma map_text_mergeSort (names : List (Name × Referent σ)) :
    (names.mergeSort longerFirst).map (fun nr => nr.1.text) =
      (names.map fun nr => nr.1.text).mergeSort longerText :=
  List.map_mergeSort fun _ _ _ _ => rfl

lemma ofBindings_eq_number {names : List (Name × Referent σ)}
    (h : readNames maxBindings bs = .ok names) :
    ofBindings bs = number [] 0 (names.mergeSort longerFirst) := by
  unfold ofBindings
  rw [h]
  rfl

theorem ofBindings_of_accepts (h : Accepts (bindingNames bs)) : ∃ t, ofBindings bs = .ok t := by
  obtain ⟨hlength, hnames, hnodup⟩ := h
  rw [bindingNames, List.length_map] at hlength
  obtain ⟨names, hread, htexts⟩ := readNames_eq_ok hlength hnames
  rw [ofBindings_eq_number hread]
  refine number_eq_ok ?_
  rw [map_text_mergeSort, htexts]
  exact (List.mergeSort_perm _ longerText).nodup_iff.2 hnodup

theorem ofBindings_of_rejects {err : Error} (h : Rejects (bindingNames bs) err) :
    ofBindings bs = .error err := by
  cases h with
  | name hsplit hroom hus hf =>
    unfold ofBindings
    rw [readNames_eq_badName hsplit hroom hus hf]
    rfl
  | full hlong hall =>
    rw [bindingNames, List.length_map] at hlong
    unfold ofBindings
    rw [readNames_eq_full hlong hall]
    rfl
  | @duplicate us vs n hlength hall hsorted hus hn =>
    rw [bindingNames, List.length_map] at hlength
    obtain ⟨names, hread, htexts⟩ := readNames_eq_ok hlength hall
    rw [ofBindings_eq_number hread]
    have hnames : (names.mergeSort longerFirst).map (fun nr => nr.1.text) = us ++ n :: vs := by
      rw [map_text_mergeSort, htexts]
      exact (longestFirst_mergeSort _).unique hsorted
    exact number_eq_duplicate hnames hus hn

/-- **Bindings that are accepted make a table**, and the others have one error each. -/
theorem ofBindings_iff (bs : List (Binding σ)) :
    ((∃ t, ofBindings bs = .ok t) ↔ Accepts (bindingNames bs)) ∧
      ∀ err, ofBindings bs = .error err ↔ Rejects (bindingNames bs) err := by
  rcases accepts_or_rejects (bindingNames bs) with h | ⟨err, h⟩
  · obtain ⟨t, ht⟩ := ofBindings_of_accepts h
    refine ⟨iff_of_true ⟨t, ht⟩ h, fun err => iff_of_false (by simp [ht]) fun herr => ?_⟩
    cases ht.symm.trans (ofBindings_of_rejects herr)
  · have herr := ofBindings_of_rejects h
    refine ⟨iff_of_false (by simp [herr]) fun hacc => ?_,
      fun err' => ⟨fun h' => ?_, ofBindings_of_rejects⟩⟩
    · obtain ⟨t, ht⟩ := ofBindings_of_accepts hacc
      cases ht.symm.trans herr
    · cases herr.symm.trans h'
      exact h

end SymbolTable

end Formula
