import Formula.Proofs.Symbols.Acceptance

/-!
Symbol tables in containers of bounded size.

A table is made of strings of bounded size and has an index of bounded size from names to places.
Whatever the containers are, as long as they hold what they are made for, a name that may be bound
fits into a string and the index has room for all names that may be bound. So what is bound and
which error there is are the same as without containers. Main statement: `ofBindings_verdict`.
-/

namespace Formula

/-- Strings and an index by strings, both of bounded size. What does not fit is refused. -/
structure Containers where
  Str : Type
  ofText? : Text → Option Str
  text : Str → Text
  Index : Type
  empty : Index
  size : Index → ℕ
  find? : Index → Str → Option ℕ
  insert? : Index → Str → ℕ → Option Index

namespace Containers

/-- The containers hold what they are made for: a string the bytes that a name may have, and an
index the names that may be bound. The text of a string is its key. -/
structure Hold (C : Containers) : Prop where
  text_of_ofText? {t : Text} {s : C.Str} : C.ofText? t = some s → C.text s = t
  ofText?_isSome {t : Text} : byteLength t ≤ maxNameLength → (C.ofText? t).isSome
  size_empty : C.size C.empty = 0
  find?_empty (s : C.Str) : C.find? C.empty s = none
  insert?_isSome {x : C.Index} {s : C.Str} {i : ℕ} : C.size x < maxBindings →
    (C.insert? x s i).isSome
  size_insert? {x x' : C.Index} {s : C.Str} {i : ℕ} : C.find? x s = none →
    C.insert? x s i = some x' → C.size x' = C.size x + 1
  find?_insert? {x x' : C.Index} {s : C.Str} {i : ℕ} : C.insert? x s i = some x' →
    ∀ s', C.find? x' s' = if C.text s' = C.text s then some i else C.find? x s'

/-- A table with an index of its names. -/
structure Table (C : Containers) (σ : Type) where
  symbols : List (C.Str × Symbol.Kind σ) := []
  index : C.Index := C.empty
  slots : ℕ := 0

variable {σ : Type} (C : Containers)

/-- A name in a string. -/
def readName (raw : Text) : Except Error C.Str :=
  match Name.ofText raw with
  | .error err => .error err
  | .ok n => match C.ofText? n.text with
    | some s => .ok s
    | none => .error .nameTooLong

/-- Reads the names behind those that have been read. -/
def collect (entries : List (C.Str × Referent σ)) :
    List (Binding σ) → Except Error (List (C.Str × Referent σ))
  | [] => .ok entries
  | b :: bs =>
    if entries.length = maxBindings then .error (.full .bindings)
    else do
      let n ← C.readName b.name
      collect (entries ++ [(n, b.referent)]) bs

/-- The longer names come first. -/
def sort (entries : List (C.Str × Referent σ)) : List (C.Str × Referent σ) :=
  entries.mergeSort fun a b => longerText (C.text a.1) (C.text b.1)

/-- Puts the names into the table and into its index. -/
def fill (t : C.Table σ) : List (C.Str × Referent σ) → Except Error (C.Table σ)
  | [] => .ok t
  | (n, r) :: rest =>
    if (C.find? t.index n).isSome then .error (.badName (C.text n) .duplicate)
    else match C.insert? t.index n t.symbols.length with
      | none => .error (.full .bindings)
      | some index =>
        fill ⟨t.symbols ++ [(n, (r.kindAt t.slots).1)], index, (r.kindAt t.slots).2⟩ rest

def ofBindings (bs : List (Binding σ)) : Except Error (C.Table σ) := do
  let entries ← C.collect [] bs
  C.fill {} (C.sort entries)

/-- Where the index has a name. -/
def indexOf? (t : C.Table σ) (name : Text) : Option ℕ := (C.ofText? name).bind (C.find? t.index)

end Containers

/-- Two computations end alike: with the same error, or with results that are related. -/
inductive EndsAlike {α β : Type} (R : α → β → Prop) : Except Error α → Except Error β → Prop
  | ok {a : α} {b : β} : R a b → EndsAlike R (.ok a) (.ok b)
  | error (err : Error) : EndsAlike R (.error err) (.error err)

namespace EndsAlike

variable {α β γ δ : Type} {R : α → β → Prop} {S : γ → δ → Prop} {x : Except Error α}
  {y : Except Error β}

lemma bind {f : α → Except Error γ} {g : β → Except Error δ} (h : EndsAlike R x y)
    (hf : ∀ a b, R a b → EndsAlike S (f a) (g b)) : EndsAlike S (x >>= f) (y >>= g) := by
  cases h with
  | ok hr => exact hf _ _ hr
  | error err => exact .error err

lemma imp {S : α → β → Prop} (h : EndsAlike R x y) (himp : ∀ a b, R a b → S a b) :
    EndsAlike S x y := by
  cases h with
  | ok hr => exact .ok (himp _ _ hr)
  | error err => exact .error err

lemma ok_iff (h : EndsAlike R x y) : (∃ a, x = .ok a) ↔ ∃ b, y = .ok b := by
  cases h with
  | ok => simp
  | error => simp

lemma error_iff (h : EndsAlike R x y) {err : Error} : x = .error err ↔ y = .error err := by
  cases h with
  | ok => simp
  | error => simp

end EndsAlike

namespace Containers

open SymbolTable (readNames number longerFirst labels)

variable {σ : Type} {C : Containers}

/-- The entry as bindings have it. -/
def entryNamed (C : Containers) (x : C.Str × Referent σ) : Text × Referent σ := (C.text x.1, x.2)

def nameNamed (x : Name × Referent σ) : Text × Referent σ := (x.1.text, x.2)

namespace Hold

variable (hC : C.Hold)
include hC

lemma endsAlike_readName (raw : Text) :
    EndsAlike (fun s n => C.text s = n.text) (C.readName raw) (Name.ofText raw) := by
  unfold readName
  rcases Name.ofText raw with err | n
  · exact .error err
  · obtain ⟨s, hs⟩ := Option.isSome_iff_exists.1 (hC.ofText?_isSome n.length_le)
    simp only [hs]
    exact .ok (hC.text_of_ofText? hs)

lemma endsAlike_collect {entries : List (C.Str × Referent σ)} {room : ℕ} (bs : List (Binding σ))
    (hroom : entries.length + room = maxBindings) :
    EndsAlike (fun ys names => ys.length ≤ maxBindings ∧
        ys.map C.entryNamed = entries.map C.entryNamed ++ names.map nameNamed)
      (C.collect entries bs) (readNames room bs) := by
  induction bs generalizing entries room with
  | nil =>
    have hread : readNames room ([] : List (Binding σ)) = .ok [] := by cases room <;> rfl
    rw [hread]
    exact .ok ⟨by omega, by simp⟩
  | cons b bs ih =>
    cases room with
    | zero =>
      rw [collect, if_pos (by omega)]
      exact .error _
    | succ room =>
      rw [collect, if_neg (by omega)]
      refine (hC.endsAlike_readName b.name).bind fun s n hs => ?_
      have hroom' : (entries ++ [(s, b.referent)]).length + room = maxBindings := by
        rw [List.length_append, List.length_singleton]
        omega
      have h := ih hroom'
      generalize C.collect (entries ++ [(s, b.referent)]) bs = x at h ⊢
      generalize readNames room bs = y at h ⊢
      cases h with
      | error err => exact .error err
      | ok h =>
        obtain ⟨hlength, hmap⟩ := h
        refine .ok ⟨hlength, ?_⟩
        have hentry : C.entryNamed (s, b.referent) = nameNamed (n, b.referent) := by
          rw [entryNamed, nameNamed, hs]
        simp [hmap, hentry]

end Hold

/-- The table in containers is the table, and the index knows the places of the names. -/
structure Mirrors (C : Containers) (T : C.Table σ) (t : SymbolTable σ) (slot : ℕ) : Prop where
  symbols : T.symbols.map (fun s => (C.text s.1, s.2)) = t.map fun s => (s.name.text, s.kind)
  slots : T.slots = slot
  size : C.size T.index = t.length
  find? (s : C.Str) : C.find? T.index s = t.indexOf? (C.text s)

variable {T : C.Table σ} {done : List (Symbol σ)} {slot : ℕ}

/-- The index has the names of the table. -/
lemma Mirrors.isSome_find? (hT : C.Mirrors T done.reverse slot) (s : C.Str) :
    (C.find? T.index s).isSome ↔ C.text s ∈ labels done := by
  rw [hT.find?, SymbolTable.indexOf?, List.findIdx?_isSome, List.any_reverse, List.any_eq_true,
    labels, List.mem_map]
  simp

lemma Mirrors.find?_eq_none (hT : C.Mirrors T done.reverse slot) {s : C.Str}
    (hs : C.text s ∉ labels done) : C.find? T.index s = none := by
  rw [← Option.not_isSome_iff_eq_none, hT.isSome_find?]
  exact hs

lemma Mirrors.length_symbols (hT : C.Mirrors T done.reverse slot) :
    T.symbols.length = done.length := by
  simpa using congrArg List.length hT.symbols

/-- Entries with the same names are sorted alike. -/
lemma sort_congr {entries : List (C.Str × Referent σ)} {names : List (Name × Referent σ)}
    (h : entries.map C.entryNamed = names.map nameNamed) :
    (C.sort entries).map C.entryNamed = (names.mergeSort longerFirst).map nameNamed := by
  let longer (a b : Text × Referent σ) : Bool := longerText a.1 b.1
  have hentries : (C.sort entries).map C.entryNamed = (entries.map C.entryNamed).mergeSort longer :=
    List.map_mergeSort fun _ _ _ _ => rfl
  have hnames : (names.mergeSort longerFirst).map nameNamed =
      (names.map nameNamed).mergeSort longer := List.map_mergeSort fun _ _ _ _ => rfl
  rw [hentries, hnames, h]

namespace Hold

variable (hC : C.Hold)
include hC

lemma mirrors_nil : C.Mirrors ({} : C.Table σ) [] 0 :=
  ⟨rfl, rfl, hC.size_empty, hC.find?_empty⟩

/-- A new name has its place in the index behind the others. -/
lemma mirrors_insert {s : C.Str} {n : Name} {r : Referent σ} {index : C.Index}
    (hT : C.Mirrors T done.reverse slot) (hs : C.text s = n.text) (hnew : C.text s ∉ labels done)
    (hindex : C.insert? T.index s T.symbols.length = some index) :
    C.Mirrors ⟨T.symbols ++ [(s, (r.kindAt T.slots).1)], index, (r.kindAt T.slots).2⟩
      (⟨n, (r.kindAt slot).1⟩ :: done).reverse (r.kindAt slot).2 := by
  have hnone := hT.find?_eq_none hnew
  rw [List.reverse_cons]
  refine ⟨?_, by rw [hT.slots], ?_, fun s' => ?_⟩
  · rw [List.map_append, List.map_append, hT.symbols, hT.slots]
    simp [hs]
  · rw [hC.size_insert? hnone hindex, hT.size, List.length_append, List.length_singleton]
  · rw [hC.find?_insert? hindex, SymbolTable.indexOf?, List.findIdx?_append,
      ← SymbolTable.indexOf?, ← hT.find?]
    by_cases hsame : C.text s' = C.text s
    · have hnone' := hT.find?_eq_none (hsame ▸ hnew)
      rw [if_pos hsame, hnone', hT.length_symbols]
      simp [hsame, hs]
    · rw [if_neg hsame]
      have hne : n.text ≠ C.text s' := fun h => hsame (h ▸ hs.symm)
      simp [hne]

lemma endsAlike_fill {entries : List (C.Str × Referent σ)} {names : List (Name × Referent σ)}
    (hT : C.Mirrors T done.reverse slot) (hlength : done.length + entries.length ≤ maxBindings)
    (hsame : entries.map C.entryNamed = names.map nameNamed) :
    EndsAlike (fun T' t => ∃ slot', C.Mirrors T' t slot') (C.fill T entries)
      (number done slot names) := by
  induction entries generalizing T done slot names with
  | nil =>
    obtain rfl : names = [] := List.map_eq_nil_iff.1 hsame.symm
    exact .ok ⟨_, hT⟩
  | cons x entries ih =>
    obtain ⟨s, r⟩ := x
    obtain ⟨⟨n, r'⟩, names, rfl, hn, hrest⟩ := List.map_eq_cons_iff.1 hsame.symm
    obtain ⟨hs, rfl⟩ := Prod.mk.inj hn
    replace hs : C.text s = n.text := hs.symm
    rw [List.length_cons] at hlength
    unfold fill
    by_cases hmem : C.text s ∈ labels done
    · rw [if_pos ((hT.isSome_find? s).2 hmem), SymbolTable.number_cons_of_mem (hs ▸ hmem), hs]
      exact .error _
    · -- there is room in the index for one more name
      have hroom : C.size T.index < maxBindings := by
        rw [hT.size, List.length_reverse]
        omega
      obtain ⟨index, hindex⟩ := Option.isSome_iff_exists.1
        (hC.insert?_isSome (s := s) (i := T.symbols.length) hroom)
      rw [if_neg fun h => hmem ((hT.isSome_find? s).1 h), SymbolTable.number_cons (hs ▸ hmem)]
      simp only [hindex]
      refine ih (hC.mirrors_insert hT hs hmem hindex) ?_ hrest.symm
      rw [List.length_cons]
      omega

/-- The names that have been read are put into the table as without containers. -/
lemma endsAlike_fill_sort {entries : List (C.Str × Referent σ)} {names : List (Name × Referent σ)}
    (hlength : entries.length ≤ maxBindings)
    (hsame : entries.map C.entryNamed = names.map nameNamed) :
    EndsAlike (fun T t => ∃ slot, C.Mirrors T t slot) (C.fill {} (C.sort entries))
      (number [] 0 (names.mergeSort longerFirst)) := by
  refine hC.endsAlike_fill hC.mirrors_nil ?_ (sort_congr hsame)
  rw [List.length_nil, Nat.zero_add, sort, List.length_mergeSort]
  exact hlength

theorem endsAlike_ofBindings (bs : List (Binding σ)) :
    EndsAlike (fun T t => ∃ slot, C.Mirrors T t slot) (C.ofBindings bs)
      (SymbolTable.ofBindings bs) := by
  refine (hC.endsAlike_collect bs (Nat.zero_add _)).bind fun entries names h => ?_
  exact hC.endsAlike_fill_sort h.1 h.2

/-- The index has room for all names that have been read. -/
theorem fill_ne_full {bs : List (Binding σ)} {entries : List (C.Str × Referent σ)}
    (h : C.collect [] bs = .ok entries) :
    C.fill {} (C.sort entries) ≠ .error (.full .bindings) := by
  have hread : EndsAlike _ (C.collect [] bs) (readNames maxBindings bs) :=
    hC.endsAlike_collect bs (Nat.zero_add _)
  rw [h] at hread
  generalize readNames maxBindings bs = names at hread
  cases hread with
  | @ok _ names hr =>
    rw [Ne, (hC.endsAlike_fill_sort hr.1 hr.2).error_iff]
    rcases SymbolTable.number_cases_nodup (names.mergeSort longerFirst) with ⟨t, ht⟩ | ⟨n, hn⟩
    · simp [ht]
    · simp [hn]

/-- A name is found in the index where it is found in the table. One that does not fit into a string
is in neither. -/
theorem indexOf?_eq {T : C.Table σ} {t : SymbolTable σ} {slot : ℕ} (hT : C.Mirrors T t slot)
    (name : Text) : C.indexOf? T name = t.indexOf? name := by
  unfold indexOf?
  rcases hs : C.ofText? name with _ | s
  · have hlong : ¬byteLength name ≤ maxNameLength := by
      intro hle
      simpa [hs] using hC.ofText?_isSome hle
    symm
    refine List.findIdx?_eq_none_iff.2 fun s _ => decide_eq_false fun h => hlong ?_
    rw [← h]
    exact s.name.length_le
  · rw [Option.bind_some, hT.find?, hC.text_of_ofText? hs]

end Hold

open SymbolTable (Accepts Rejects)

/-- **Bindings are accepted or have one error**, and no container is ever too small. They make a
table if there are no more than may be bound and their names are different words, none too long.
Otherwise the first name that is no such word is the error, if it is among as many as may be bound;
without one, that there are more; and else the name that is the first to come a second time when
the longer names come first. In containers of bounded size the table and the error are the same, and
the index has the names of the table: every name that is read fits into a string, and all fit into
the index. -/
theorem ofBindings_verdict (C : Containers) (hC : C.Hold) (bs : List (Binding σ)) :
    ((∃ t, SymbolTable.ofBindings bs = .ok t) ↔ Accepts (bindingNames bs)) ∧
    (∀ err, SymbolTable.ofBindings bs = .error err ↔ Rejects (bindingNames bs) err) ∧
    EndsAlike (fun T t =>
        T.symbols.map (fun s => (C.text s.1, s.2)) = t.map (fun s => (s.name.text, s.kind)) ∧
        ∀ name, C.indexOf? T name = t.indexOf? name)
      (C.ofBindings bs) (SymbolTable.ofBindings bs) ∧
    (∀ entries, C.collect [] bs = .ok entries →
      C.fill {} (C.sort entries) ≠ .error (.full .bindings)) ∧
    C.ofBindings bs ≠ .error .nameTooLong := by
  have halike := hC.endsAlike_ofBindings bs
  obtain ⟨haccepts, hrejects⟩ := SymbolTable.ofBindings_iff bs
  refine ⟨haccepts, hrejects, ?_, fun entries => hC.fill_ne_full, ?_⟩
  · exact halike.imp fun T t ⟨slot, hT⟩ => ⟨hT.symbols, hC.indexOf?_eq hT⟩
  · rw [Ne, halike.error_iff, hrejects]
    rintro ⟨⟩

/-! ### Lists as containers -/

/-- The text, if it is not too long. -/
def fits? (t : Text) : Option Text := if byteLength t ≤ maxNameLength then some t else none

/-- A place for a key, new or in the room of an old one, if there is room. -/
def put? (x : List (Text × ℕ)) (s : Text) (i : ℕ) : Option (List (Text × ℕ)) :=
  if (x.lookup s).isSome ∨ x.length < maxBindings then some ((s, i) :: x.filter (·.1 ≠ s)) else none

/-- Texts and lists whose size is bounded. -/
def lists : Containers where
  Str := Text
  ofText? := fits?
  text := id
  Index := List (Text × ℕ)
  empty := []
  size := List.length
  find? x s := x.lookup s
  insert? := put?

section Put

variable {x x' : List (Text × ℕ)} {s s' : Text} {i : ℕ}

lemma eq_of_put? (h : put? x s i = some x') : x' = (s, i) :: x.filter (·.1 ≠ s) :=
  (Option.some.inj (Option.ite_none_right_eq_some.1 h).2).symm

lemma length_put? (hnone : x.lookup s = none) (h : put? x s i = some x') :
    x'.length = x.length + 1 := by
  have hfilter : x.filter (·.1 ≠ s) = x := by
    refine List.filter_eq_self.2 fun e he => decide_eq_true fun hs => ?_
    have hne := List.lookup_eq_none_iff.1 hnone e he
    simp [hs] at hne
  rw [eq_of_put? h, List.length_cons, hfilter]

lemma lookup_filter_ne (h : s' ≠ s) : (x.filter (·.1 ≠ s)).lookup s' = x.lookup s' := by
  induction x with
  | nil => rfl
  | cons e x ih =>
    obtain ⟨k, i⟩ := e
    by_cases hk : k = s
    · have hne : (s' == k) = false := by simpa [hk] using h
      rw [List.filter_cons_of_neg (by simp [hk]), ih, List.lookup_cons, hne]
    · rw [List.filter_cons_of_pos (by simp [hk]), List.lookup_cons, List.lookup_cons, ih]

lemma lookup_put? (h : put? x s i = some x') (s' : Text) :
    x'.lookup s' = if s' = s then some i else x.lookup s' := by
  rw [eq_of_put? h, List.lookup_cons]
  by_cases hs : s' = s
  · simp [hs]
  · rw [if_neg hs, beq_false_of_ne hs]
    exact lookup_filter_ne hs

end Put

lemma lists_hold : lists.Hold where
  text_of_ofText? h := (Option.some.inj (Option.ite_none_right_eq_some.1 h).2).symm
  ofText?_isSome h := Option.isSome_iff_exists.2 ⟨_, if_pos h⟩
  size_empty := rfl
  find?_empty _ := rfl
  insert?_isSome h := Option.isSome_iff_exists.2 ⟨_, if_pos (.inr h)⟩
  size_insert? := length_put?
  find?_insert? := lookup_put?

/-- Two variables, each with a second name. -/
def boundTwice : List (Binding Unit) :=
  [⟨['a'], .variable 0⟩, ⟨['b', 'b', ' '], .variable 1⟩, ⟨[' ', 'a'], .variable 0⟩,
    ⟨['b', 'b'], .variable 1⟩]

/-- In `a`, `bb`, `a`, `bb` the name that comes a second time first is the shorter one, but with the
longer names first it is the other. -/
theorem ofBindings_verdict_twice : lists.Hold ∧
    SymbolTable.ofBindings boundTwice = .error (.badName ['b', 'b'] .duplicate) ∧
    lists.ofBindings boundTwice = .error (.badName ['b', 'b'] .duplicate) ∧
    (∀ entries, lists.collect [] boundTwice = .ok entries →
      lists.fill {} (lists.sort entries) ≠ .error (.full .bindings)) := by
  obtain ⟨-, hrejects, halike, hfill, -⟩ := ofBindings_verdict lists lists_hold boundTwice
  have hsorted : LongestFirst (bindingNames boundTwice)
      ([['b', 'b']] ++ ['b', 'b'] :: [['a'], ['a']]) := by decide
  have herr : SymbolTable.ofBindings boundTwice = .error (.badName ['b', 'b'] .duplicate) :=
    (hrejects _).2 (.duplicate (by decide) (by decide) hsorted (by decide) (by decide))
  exact ⟨lists_hold, herr, halike.error_iff.2 herr, hfill⟩

end Containers

end Formula
