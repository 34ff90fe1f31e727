import Formula.Proofs.Symbols.Bounded
import Formula.Proofs.Fits
import Formula.Proofs.Store.Layout
import Mathlib

/-!
What names stand for and which slots variables have, wherever they are counted.

Variables are counted in four places: the slot that a symbol has, the number of slots of the table,
the list of the variables, and the slots of the expression that they are attached to. Names are
found by two indexes, the place of a symbol and the slot of a variable, and behind them in the list
of builtins, which is searched by halving. They all agree (`resolution_agrees`).
-/

namespace Formula

variable {σ : Type}

/-! ### Search by halving -/

section Bisect

variable {α κ : Type} [LinearOrder κ] (key : α → κ) (x : κ)

/-- Looks for a key in a list that is sorted by it, each time in one half of what is left. -/
def bisect? (l : List α) : Option α :=
  match h : l.drop (l.length / 2) with
  | [] => none
  | mid :: right =>
    have hright : right.length < l.length := by
      have hlen := congrArg List.length h
      rw [List.length_drop, List.length_cons] at hlen
      omega
    if x < key mid then bisect? (l.take (l.length / 2))
    else if key mid < x then bisect? right
    else some mid
termination_by l.length
decreasing_by
  · rw [List.length_take]
    omega
  · exact hright

variable {key x} [DecidableEq κ]

/-- Where a sorted list is cut tells on which side the key can be. -/
lemma find?_of_sorted {l right : List α} {mid : α} {n : ℕ}
    (hl : l.Pairwise fun a b => key a < key b) (h : l.drop n = mid :: right) :
    l.find? (key · = x) =
      if x < key mid then (l.take n).find? (key · = x)
      else if key mid < x then right.find? (key · = x)
      else some mid := by
  have hsplit : l = l.take n ++ mid :: right := by rw [← h, List.take_append_drop]
  rw [hsplit, List.pairwise_append, List.pairwise_cons] at hl
  obtain ⟨-, ⟨hright, -⟩, hleft⟩ := hl
  have hbelow (hle : key mid ≤ x) : (l.take n).find? (key · = x) = none := by
    refine List.find?_eq_none.2 fun a ha => ?_
    simpa using ((hleft a ha mid List.mem_cons_self).trans_le hle).ne
  conv_lhs => rw [hsplit, List.find?_append]
  split
  · rename_i hlt
    have habove : (mid :: right).find? (key · = x) = none := by
      refine List.find?_eq_none.2 fun a ha => ?_
      rcases List.mem_cons.1 ha with rfl | ha
      · simpa using hlt.ne'
      · simpa using (hlt.trans (hright a ha)).ne'
    rw [habove, Option.or_none]
  · rename_i hle
    rw [hbelow (not_lt.1 hle), Option.none_or]
    split
    · rename_i hlt
      exact List.find?_cons_of_neg (by simpa using hlt.ne)
    · rename_i hge
      exact List.find?_cons_of_pos (by simpa using le_antisymm (not_lt.1 hle) (not_lt.1 hge))

/-- In a sorted list halving finds what is found from the first to the last. -/
theorem bisect?_eq_find? {l : List α} (hl : l.Pairwise fun a b => key a < key b) :
    bisect? key x l = l.find? (key · = x) := by
  fun_induction bisect? key x l with
  | case1 l h =>
    have hlen := List.drop_eq_nil_iff.1 h
    obtain rfl : l = [] := List.length_eq_zero_iff.1 (by omega)
    rfl
  | case2 l mid right h _ hlt ih =>
    rw [find?_of_sorted hl h, if_pos hlt, ih (hl.sublist (List.take_sublist _ l))]
  | case3 l mid right h _ hle hlt ih =>
    have hsub : right.Sublist l := by
      have hdrop := List.drop_sublist (l.length / 2) l
      rw [h] at hdrop
      exact (List.sublist_cons_self mid right).trans hdrop
    rw [find?_of_sorted hl h, if_neg hle, if_pos hlt, ih (hl.sublist hsub)]
  | case4 l mid right h _ hle hge => rw [find?_of_sorted hl h, if_neg hle, if_neg hge]

end Bisect

/-! ### What a name stands for -/

/-- What the name of a symbol stands for if the symbol has this place in its table. -/
def Symbol.Kind.meaning (i : ℕ) : Symbol.Kind σ → Meaning
  | .variable _ slot => .variable slot
  | .function f => .function (.bound i) f.arity

/-- The slot of a symbol of this kind. -/
def Symbol.Kind.slot? : Symbol.Kind σ → Option ℕ
  | .variable _ slot => some slot
  | .function _ => none

def Builtin.meaning (b : Builtin) : Meaning := .function (.builtin b) b.arity

/-- The list has the elements of the other, those of a greater key first and those of one key in the
order that they have there. -/
structure SortedDown {α : Type} (key : α → ℕ) (given sorted : List α) : Prop where
  perm : sorted.Perm given
  pairwise : sorted.Pairwise fun a b => key b ≤ key a
  stable (n : ℕ) : sorted.filter (key · = n) = given.filter (key · = n)

lemma sortedDown_mergeSort {α : Type} (key : α → ℕ) (l : List α) :
    SortedDown key l (l.mergeSort fun a b => key b ≤ key a) :=
  ⟨List.mergeSort_perm l _, (mergeSort_byKey key l).1, (mergeSort_byKey key l).2⟩

lemma SortedDown.map {α β : Type} (key : β → ℕ) (f : α → β) {given sorted : List α}
    (h : SortedDown (fun a => key (f a)) given sorted) :
    SortedDown key (given.map f) (sorted.map f) where
  perm := h.perm.map f
  pairwise := List.pairwise_map.2 h.pairwise
  stable n := by
    rw [List.filter_map, List.filter_map]
    exact congrArg (List.map f) (h.stable n)

/-- The length of a name that is bound. -/
def namedLength (nr : Text × Referent σ) : ℕ := byteLength nr.1

namespace SymbolTable

variable {bs : List (Binding σ)} {t : SymbolTable σ} {name : Text}

/-- The longer names come first. -/
lemma sortedDown_named (h : ofBindings bs = .ok t) :
    SortedDown namedLength (bs.map Binding.named) (t.map Symbol.named) := by
  rcases readNames_cases maxBindings bs with ⟨names, hread, hnames⟩ | ⟨err, hread, -⟩
  · rw [ofBindings_eq_number hread] at h
    rcases number_cases [] 0 (names.mergeSort longerFirst) with ⟨t', ht, hmap⟩ | ⟨err, herr, -⟩
    · cases h.symm.trans ht
      have hnamed := congrArg (List.map fun nr : Name × Referent σ => (nr.1.text, nr.2)) hmap
      rw [List.map_map] at hnamed
      rw [← hnames]
      exact hnamed ▸ (sortedDown_mergeSort (fun nr => byteLength nr.1.text) names).map namedLength _
    · cases h.symm.trans herr
  · unfold ofBindings at h
    rw [hread] at h
    cases h

lemma resolve_of_indexOf? {i : ℕ} (h : t.indexOf? name = some i) :
    t.resolve name = t[i]?.map (·.kind.meaning i) := by
  unfold resolve
  simp only [h]
  rfl

lemma resolve_of_indexOf?_none (h : t.indexOf? name = none) :
    t.resolve name = (Builtin.all.find? (·.name = name)).map Builtin.meaning := by
  unfold resolve Builtin.find?
  simp only [h, beq_eq_decide]
  rfl

/-- A name that is bound stands for what it is bound to. -/
lemma resolve_of_binds (h : ofBindings bs = .ok t) {r : Referent σ} (hr : Binds bs name r) :
    ∃ i, ∃ s : Symbol σ, t[i]? = some s ∧ s.named = (name, r) ∧
      t.resolve name = some (s.kind.meaning i) := by
  obtain ⟨i, s, hi, hs, htext, href⟩ := indexOf?_of_binds h hr
  exact ⟨i, s, hs, Prod.ext htext href, by rw [resolve_of_indexOf? hi, hs, Option.map_some]⟩

/-- A name that is not bound stands for a builtin or for nothing. -/
lemma resolve_of_not_binds (h : ofBindings bs = .ok t) (hr : ∀ r, ¬Binds bs name r) :
    t.resolve name = (Builtin.all.find? (·.name = name)).map Builtin.meaning := by
  refine resolve_of_indexOf?_none ?_
  rcases hi : t.indexOf? name with _ | i
  · rfl
  · obtain ⟨s, -, -, hbinds⟩ := binds_of_indexOf? h hi
    exact absurd hbinds (hr _)

/-- A symbol is found under its name at its own place. -/
lemma indexOf?_of_getElem? (h : ofBindings bs = .ok t) {i : ℕ} {s : Symbol σ}
    (hs : t[i]? = some s) : t.indexOf? s.name.text = some i := by
  obtain ⟨hlt, hget⟩ := List.getElem?_eq_some_iff.1 hs
  refine List.findIdx?_eq_some_iff_getElem.2 ⟨hlt, by simp [hget], fun j hj => ?_⟩
  have hne : t[j].name ≠ t[i].name := by
    have hpair := List.pairwise_iff_getElem.1 (List.pairwise_map.1 (nodup_names h))
    exact hpair j i (hj.trans hlt) hlt hj
  simpa [hget] using fun htext => hne (hget ▸ Name.ext htext)

lemma resolve_of_getElem? (h : ofBindings bs = .ok t) {i : ℕ} {s : Symbol σ}
    (hs : t[i]? = some s) : t.resolve s.name.text = some (s.kind.meaning i) := by
  rw [resolve_of_indexOf? (indexOf?_of_getElem? h hs), hs, Option.map_some]

lemma functionAt?_eq_some {i : ℕ} {n : Name} {f : HostFunction σ} :
    t.functionAt? i = some (n, f) ↔ t[i]? = some ⟨n, .function f⟩ := by
  unfold functionAt?
  rcases t[i]? with _ | ⟨m, v | g⟩
  · simp
  · simp
  · simp

end SymbolTable

/-! ### The table with an index -/

namespace Containers

/-- What a name stands for, found with the index of the table and by halving the builtins. -/
def resolve (C : Containers) (T : C.Table σ) (name : Text) : Option Meaning :=
  match C.indexOf? T name with
  | some i => T.symbols[i]?.map (·.2.meaning i)
  | none => (bisect? Builtin.name name Builtin.all).map Builtin.meaning

variable {C : Containers} {T T' : C.Table σ} {t : SymbolTable σ} {slot : ℕ}

/-- The slots of the table are numbered from the first symbol to the last. -/
def Counts (T : C.Table σ) : Prop := T.symbols.filterMap (·.2.slot?) = List.range T.slots

lemma counts_fill {entries : List (C.Str × Referent σ)} (hT : Counts T)
    (h : C.fill T entries = .ok T') : Counts T' := by
  induction entries generalizing T with
  | nil =>
    cases h
    exact hT
  | cons x entries ih =>
    obtain ⟨s, r⟩ := x
    unfold fill at h
    split at h
    · cases h
    · split at h
      · cases h
      · refine ih ?_ h
        unfold Counts at hT ⊢
        rw [List.filterMap_append, hT]
        cases r with
        | «variable» v => exact List.range_succ.symm
        | function f => exact List.append_nil _

lemma counts_ofBindings {bs : List (Binding σ)} (h : C.ofBindings bs = .ok T) : Counts T := by
  unfold ofBindings at h
  rcases hread : C.collect [] bs with err | entries
  · rw [hread] at h
    cases h
  · rw [hread] at h
    have hnil : Counts ({} : C.Table σ) := rfl
    exact counts_fill hnil h

lemma Mirrors.slots_eq_range (hT : C.Mirrors T t slot) (h : Counts T) :
    t.filterMap (·.kind.slot?) = List.range T.slots := by
  have hkinds := congrArg (List.filterMap fun s : Text × Symbol.Kind σ => s.2.slot?) hT.symbols
  rw [List.filterMap_map, List.filterMap_map] at hkinds
  exact hkinds.symm.trans h

lemma Mirrors.getElem? (hT : C.Mirrors T t slot) (i : ℕ) :
    T.symbols[i]?.map Prod.snd = t[i]?.map Symbol.kind := by
  have hi := congrArg (fun l => l[i]?.map Prod.snd) hT.symbols
  simpa [Function.comp_def] using hi

/-- The builtins are sorted by name. -/
lemma pairwise_name_all : Builtin.all.Pairwise fun a b => a.name < b.name := by decide

/-- Names stand for the same with the index as without. -/
lemma Hold.resolve_eq (hC : C.Hold) (hT : C.Mirrors T t slot) (name : Text) :
    C.resolve T name = t.resolve name := by
  unfold resolve
  rw [hC.indexOf?_eq hT]
  rcases hi : t.indexOf? name with _ | i
  · have hfind := bisect?_eq_find? (x := name) pairwise_name_all
    exact (congrArg (Option.map Builtin.meaning) hfind).trans
      (SymbolTable.resolve_of_indexOf?_none hi).symm
  · have hkind := congrArg (Option.map (Symbol.Kind.meaning i)) (hT.getElem? i)
    rw [Option.map_map, Option.map_map] at hkind
    rw [SymbolTable.resolve_of_indexOf? hi]
    exact hkind

end Containers

/-! ### The slots of an expression -/

namespace Store

variable {w w' : Store σ} {e : ExprId} {program : Option (Program σ)} {n m : ℕ}

def slotCount (w : Store σ) (e : ExprId) : ℕ :=
  ((w.exprs.get? e).map fun c => c.slots.length).getD 0

/-- Attaches the variables of a table, one symbol after the other. There is no result if a slot does
not get the number that its symbol has. -/
def attachTable (w : Store σ) (e : ExprId) :
    SymbolTable σ → Option (Except Error Unit × Store σ)
  | [] => some (.ok (), w)
  | ⟨_, .function _⟩ :: t => w.attachTable e t
  | ⟨name, .variable v slot⟩ :: t =>
    if slot = w.slotCount e then
      match w.attach e name v with
      | (.ok _, w') => w'.attachTable e t
      | (.error err, w') => some (.error err, w')
    else none

lemma slotCount_of_layout (h : w.layout e = some (program, n)) : w.slotCount e = n := by
  obtain ⟨c, hc, -, hlength⟩ := layout_eq_some h
  simp [slotCount, hc, hlength]

/-- Every slot gets the number of its symbol. -/
lemma attachTable_eq {t : SymbolTable σ} (h : w.layout e = some (program, n))
    (ht : t.filterMap (·.kind.slot?) = List.range' n m) :
    w.attachTable e t = some (w.attachAll e t.vars) := by
  induction t generalizing w n m with
  | nil => rfl
  | cons s t ih =>
    obtain ⟨name, ⟨v, slot⟩ | f⟩ := s
    · cases m with
      | zero => cases ht
      | succ m =>
        rw [List.range'_succ] at ht
        obtain ⟨rfl, hrest⟩ := List.cons.inj ht
        have hvars : SymbolTable.vars (⟨name, .variable v slot⟩ :: t) =
            (name, v) :: SymbolTable.vars t := rfl
        rw [attachTable, if_pos (slotCount_of_layout h).symm, hvars, attachAll]
        by_cases hl : w.listener v = none
        · obtain ⟨w', hattach, hlayout, -⟩ := attach_of_free h hl name
          simp only [hattach]
          exact ih hlayout hrest
        · simp only [attach_of_bound h hl]
    · exact ih h ht

/-- The slots are those of the variables, in their order and with their values. -/
lemma slots_attachAll {c : Compiled σ} {vs : List (Name × VarId)} (hc : w.exprs.get? e = some c)
    (h : w.attachAll e vs = (.ok (), w')) :
    ∃ c', w'.exprs.get? e = some c' ∧
      c'.slots = c.slots ++ vs.map fun nv => ⟨nv.1, nv.2, w.value nv.2⟩ := by
  induction vs generalizing w c with
  | nil =>
    cases h
    exact ⟨c, hc, (List.append_nil _).symm⟩
  | cons nv vs ih =>
    obtain ⟨name, v⟩ := nv
    have hlayout : w.layout e = some (c.program, c.slots.length) := by simp [layout, hc]
    by_cases hl : w.listener v = none
    · have hfree : (w.cell v).listener.isSome = false := by
        change (w.listener v).isSome = false
        rw [hl]
        rfl
      have hattach : w.attach e name v =
          (.ok (), (w.setCell v ⟨w.value v, some ⟨e, c.slots.length⟩⟩).modifyExpr e
            fun c => { c with slots := c.slots ++ [⟨name, v, w.value v⟩] }) := by
        simp [attach, hc, hfree, value]
      have hframe := Frame.attach w e name v
      simp only [attachAll, hattach] at h hframe
      obtain ⟨c', hc', hslots⟩ := ih (by simp [modifyExpr, setCell, hc]; rfl) h
      refine ⟨c', hc', ?_⟩
      simp only [hframe.value] at hslots
      rw [hslots, List.append_assoc]
      rfl
    · simp only [attachAll, attach_of_bound hlayout hl] at h
      cases h

end Store

namespace SymbolTable

variable {bs : List (Binding σ)} {t : SymbolTable σ}

/-- There are as many slots as variables. -/
lemma length_vars (t : SymbolTable σ) :
    t.vars.length = (t.filterMap (·.kind.slot?)).length := by
  induction t with
  | nil => rfl
  | cons s t ih =>
    obtain ⟨name, ⟨v, slot⟩ | f⟩ := s
    · exact congrArg (· + 1) ih
    · exact ih

/-- In a table with an index names stand for the same, and there is one slot for each variable. -/
lemma exists_indexed {C : Containers} (hC : C.Hold) (h : ofBindings bs = .ok t) :
    ∃ T, C.ofBindings bs = .ok T ∧ T.slots = t.vars.length ∧
      t.filterMap (·.kind.slot?) = List.range t.vars.length ∧
      ∀ name, C.resolve T name = t.resolve name := by
  have halike := hC.endsAlike_ofBindings bs
  rw [h] at halike
  rcases hT : C.ofBindings bs with err | T
  · rw [hT] at halike
    cases halike
  · rw [hT] at halike
    cases halike with
    | ok hmirrors =>
      obtain ⟨slot, hmirrors⟩ := hmirrors
      have hrange := hmirrors.slots_eq_range (Containers.counts_ofBindings hT)
      have hslots : T.slots = t.vars.length := by
        rw [length_vars, hrange, List.length_range]
      exact ⟨T, rfl, hslots, hslots ▸ hrange, hC.resolve_eq hmirrors⟩

/-- Every slot of the table is numbered as it is attached. -/
lemma attachTable_prepare (h : t.filterMap (·.kind.slot?) = List.range t.vars.length)
    (w : Store σ) (e : ExprId) (text : Text) :
    (w.prepare e text).attachTable e t = some ((w.prepare e text).attachAll e t.vars) :=
  Store.attachTable_eq (w.layout_prepare e text) (h.trans List.range_eq_range')

/-- What is attached are the variables with their names. -/
lemma slots_of_attachTable (h : t.filterMap (·.kind.slot?) = List.range t.vars.length)
    {w w' : Store σ} {e : ExprId} {text : Text}
    (hw' : (w.prepare e text).attachTable e t = some (.ok (), w')) :
    ∃ c, w'.exprs.get? e = some c ∧
      c.slots = t.vars.map fun nv => ⟨nv.1, nv.2, w.value nv.2⟩ := by
  rw [attachTable_prepare h, Option.some.injEq] at hw'
  have hget : (w.prepare e text).exprs.get? e = some ⟨text, none, [], some []⟩ := by
    simp [Store.prepare]
  exact Store.slots_attachAll hget hw'

/-- **What names stand for and which slots variables have agree everywhere.** A table that bindings
make has all of them, the longer names first and names of one length in the order given. A bound
name stands for what it is bound to, also if a builtin has the name; any other stands for the
builtin that a search from the first to the last finds, or for nothing. The table with an index,
which searches the builtins by halving, finds the same and counts as many slots as there are
variables. Slots are numbered in the order of the table, without gaps. A variable has its slot in
the list of variables, in the values that are read, and among the slots of an expression that it is
attached to, where no slot ever gets another number than its symbol; there is no value past the
last. A place has a host function if the symbol there is one, and then its name stands for the
function at this place. -/
theorem resolution_agrees (C : Containers) (hC : C.Hold) (h : ofBindings bs = .ok t) :
    SortedDown namedLength (bs.map Binding.named) (t.map Symbol.named) ∧
    (∀ name r, Binds bs name r → ∃ i, ∃ s : Symbol σ, t[i]? = some s ∧ s.named = (name, r) ∧
      t.resolve name = some (s.kind.meaning i)) ∧
    (∀ name, (∀ r, ¬Binds bs name r) →
      t.resolve name = (Builtin.all.find? (·.name = name)).map Builtin.meaning) ∧
    (∃ T, C.ofBindings bs = .ok T ∧ T.slots = t.vars.length ∧
      t.filterMap (·.kind.slot?) = List.range T.slots ∧
      ∀ name, C.resolve T name = t.resolve name) ∧
    (∀ n v k, ⟨n, .variable v k⟩ ∈ t →
      t.vars[k]? = some (n, v) ∧ ∀ w, t.slotValue? w k = some (w.value v)) ∧
    (∀ w k, t.vars.length ≤ k → t.slotValue? w k = none) ∧
    (∀ i n f, t.functionAt? i = some (n, f) ↔ t[i]? = some ⟨n, .function f⟩) ∧
    (∀ i n f, t.functionAt? i = some (n, f) →
      t.resolve n.text = some (.function (.bound i) f.arity)) ∧
    ∀ (w : Store σ) e text,
      (w.prepare e text).attachTable e t = some ((w.prepare e text).attachAll e t.vars) ∧
      ∀ w', (w.prepare e text).attachTable e t = some (.ok (), w') →
        w'.slotCount e = t.vars.length ∧
        ∀ n v k, ⟨n, .variable v k⟩ ∈ t → w'.slot? ⟨e, k⟩ = some ⟨n, v, w.value v⟩ := by
  obtain ⟨T, hT, hslots, hrange, hresolve⟩ := exists_indexed hC h
  have hvars {n : Name} {v : VarId} {k : ℕ} (hs : ⟨n, .variable v k⟩ ∈ t) :
      t.vars[k]? = some (n, v) := by
    obtain ⟨i, hi⟩ := List.getElem?_of_mem hs
    exact (numbered_of_bindings h).getElem?_vars hi rfl
  refine ⟨sortedDown_named h, fun name r => resolve_of_binds h, fun name => resolve_of_not_binds h,
    ⟨T, hT, hslots, hslots ▸ hrange, hresolve⟩, fun n v k hs => ⟨hvars hs, fun w => ?_⟩,
    fun w k hk => ?_, fun i n f => functionAt?_eq_some, fun i n f hf => ?_, fun w e text =>
    ⟨attachTable_prepare hrange w e text, fun w' hw' => ?_⟩⟩
  · rw [slotValue?, hvars hs, Option.map_some]
  · rw [slotValue?, List.getElem?_eq_none hk, Option.map_none]
  · exact resolve_of_getElem? h (functionAt?_eq_some.1 hf)
  · obtain ⟨c, hc, hcs⟩ := slots_of_attachTable hrange hw'
    refine ⟨by simp [Store.slotCount, hc, hcs], fun n v k hs => ?_⟩
    simp [Store.slot?, hc, hcs, hvars hs]

/-- Three variables and two functions; one variable has the name of a builtin. -/
def mixedBindings : List (Binding Unit) :=
  [⟨['x'], .variable 0⟩, ⟨[' ', 'h', 'a', 'l', 'f'], .function inc⟩, ⟨['c', 'o', 's'], .variable 1⟩,
    ⟨['s', 'e', 't'], .function put⟩, ⟨['z', ' '], .variable 2⟩]

def mixedTable : SymbolTable Unit :=
  [⟨⟨['h', 'a', 'l', 'f'], rfl, by decide⟩, .function inc⟩,
    ⟨⟨['c', 'o', 's'], rfl, by decide⟩, .variable 1 0⟩,
    ⟨⟨['s', 'e', 't'], rfl, by decide⟩, .function put⟩,
    ⟨xName, .variable 0 1⟩, ⟨⟨['z'], rfl, by decide⟩, .variable 2 2⟩]

lemma ofBindings_mixed : ofBindings mixedBindings = .ok mixedTable := by
  have hread : readNames maxBindings mixedBindings =
      .ok [(xName, .variable 0), (⟨['h', 'a', 'l', 'f'], rfl, by decide⟩, .function inc),
        (⟨['c', 'o', 's'], rfl, by decide⟩, .variable 1),
        (⟨['s', 'e', 't'], rfl, by decide⟩, .function put),
        (⟨['z'], rfl, by decide⟩, .variable 2)] := rfl
  rw [ofBindings_eq_number hread]
  simp [List.mergeSort, longerFirst, xName, byteLength, Char.utf8Size]
  rfl

/-- Functions stand between the variables, and the slots are numbered without them. The name of a
builtin stands for the variable that has it. -/
theorem resolution_agrees_mixed : Containers.lists.Hold ∧
    ofBindings mixedBindings = .ok mixedTable ∧
    mixedTable.resolve ['c', 'o', 's'] = some (.variable 0) ∧
    mixedTable.resolve ['s', 'e', 't'] = some (.function (.bound 2) 1) ∧
    mixedTable.resolve ['s', 'i', 'n'] = some (.function (.builtin .sin) 1) ∧
    ∀ w : Store Unit, mixedTable.slotValue? w 1 = some (w.value 0) := by
  obtain ⟨-, -, hunbound, -, hvariable, -, hat, hfunction, -⟩ :=
    resolution_agrees Containers.lists Containers.lists_hold ofBindings_mixed
  refine ⟨Containers.lists_hold, ofBindings_mixed, rfl, ?_, ?_, ?_⟩
  · exact hfunction 2 _ put ((hat 2 _ put).2 rfl)
  · have hfree : ['s', 'i', 'n'] ∉ (mixedBindings.map Binding.named).map Prod.fst := by decide
    exact hunbound _ fun r hr => hfree (List.mem_map_of_mem hr)
  · exact (hvariable xName 0 1 (by simp [mixedTable])).2

end SymbolTable

end Formula
