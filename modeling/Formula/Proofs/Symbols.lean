import Formula.Symbols
import Mathlib.Data.List.Nodup
import Mathlib.Data.Nat.Notation
import Mathlib.Tactic.Lemma

/-!
What a symbol table keeps of the bindings that it was made from.

It has the same variables and functions under the same names, in another order. Looking a name up
finds what the bindings have for it. If there is no table, a name is at fault or there are too many.
-/

namespace Formula

variable {σ : Type}

def Referent.var? : Referent σ → Option VarId
  | .variable v => some v
  | .function _ => none

/-- The variables of the bindings, in the order given. One with two names occurs twice. -/
def boundVars (bs : List (Binding σ)) : List VarId :=
  (bs.map Binding.referent).filterMap Referent.var?

def Symbol.referent (s : Symbol σ) : Referent σ :=
  match s.kind with
  | .variable v _ => .variable v
  | .function f => .function f

/-- What a name is bound to, with the name as texts have it. -/
def Symbol.named (s : Symbol σ) : Text × Referent σ := (s.name.text, s.referent)

/-- What a name is bound to, without the blanks around the name. -/
def Binding.named (b : Binding σ) : Text × Referent σ := (trim b.name, b.referent)

/-- The bindings have the name, for this variable or function. -/
def Binds (bs : List (Binding σ)) (name : Text) (r : Referent σ) : Prop :=
  (name, r) ∈ bs.map Binding.named

/-- What keeps bindings from being a table. -/
def Error.IsNaming (err : Error) : Prop := (∃ n f, err = .badName n f) ∨ err = .full .bindings

namespace Name

lemma isNaming_of_ofText {raw : Text} {err : Error} (h : ofText raw = .error err) :
    err.IsNaming := by
  unfold ofText at h
  simp only at h
  split at h
  · cases h
    exact .inl ⟨_, _, rfl⟩
  · split at h
    · split at h
      · cases h
      · cases h
        exact .inl ⟨_, _, rfl⟩
    · cases h
      exact .inl ⟨_, _, rfl⟩

lemma ext {n m : Name} (h : n.text = m.text) : n = m := by
  cases n
  cases m
  cases h
  rfl

lemma text_of_ofText {raw : Text} {n : Name} (h : ofText raw = .ok n) : n.text = trim raw := by
  unfold ofText at h
  simp only at h
  split at h
  · cases h
  · split at h
    · split at h
      · cases h
        rfl
      · cases h
    · cases h

end Name

namespace SymbolTable

variable {bs : List (Binding σ)} {t : SymbolTable σ}

lemma readNames_cases (room : ℕ) (bs : List (Binding σ)) :
    (∃ names, readNames room bs = .ok names ∧
      names.map (fun nr => (nr.1.text, nr.2)) = bs.map Binding.named) ∨
    ∃ err, readNames room bs = .error err ∧ err.IsNaming := by
  induction bs generalizing room with
  | nil => exact .inl ⟨[], by cases room <;> rfl, rfl⟩
  | cons b bs ih =>
    cases room with
    | zero => exact .inr ⟨_, rfl, .inr rfl⟩
    | succ room =>
      rw [readNames]
      rcases hn : Name.ofText b.name with err | n
      · exact .inr ⟨err, rfl, Name.isNaming_of_ofText hn⟩
      · rcases ih room with ⟨names, hr, hnames⟩ | ⟨err, hr, herr⟩
        · rw [hr]
          refine .inl ⟨(n, b.referent) :: names, rfl, ?_⟩
          rw [List.map_cons, List.map_cons, hnames, Name.text_of_ofText hn]
          rfl
        · rw [hr]
          exact .inr ⟨err, rfl, herr⟩

lemma number_cases (done : List (Symbol σ)) (slot : ℕ) (names : List (Name × Referent σ)) :
    (∃ t, number done slot names = .ok t ∧
      t.map (fun s => (s.name, s.referent)) =
        done.reverse.map (fun s => (s.name, s.referent)) ++ names) ∨
    ∃ err, number done slot names = .error err ∧ err.IsNaming := by
  induction names generalizing done slot with
  | nil => exact .inl ⟨done.reverse, rfl, by rw [List.append_nil]⟩
  | cons nr rest ih =>
    obtain ⟨n, r⟩ := nr
    unfold number
    split
    · exact .inr ⟨_, rfl, .inl ⟨_, _, rfl⟩⟩
    · cases r with
      | «variable» v => simpa [Symbol.referent] using ih (⟨n, .variable v slot⟩ :: done) (slot + 1)
      | function f => simpa [Symbol.referent] using ih (⟨n, .function f⟩ :: done) slot

/-- Bindings that make a table make one with the same names for the same variables and functions. -/
theorem ofBindings_cases (bs : List (Binding σ)) :
    (∃ t, ofBindings bs = .ok t ∧ (t.map Symbol.named).Perm (bs.map Binding.named)) ∨
    ∃ err, ofBindings bs = .error err ∧ err.IsNaming := by
  unfold ofBindings
  rcases readNames_cases maxBindings bs with ⟨names, hr, hnames⟩ | ⟨err, hr, herr⟩
  · rw [hr]
    rcases number_cases [] 0 (names.mergeSort longerFirst) with ⟨t, ht, hmap⟩ | hfail
    · refine .inl ⟨t, ht, ?_⟩
      have htexts := congrArg (List.map fun nr : Name × Referent σ => (nr.1.text, nr.2)) hmap
      rw [List.map_map] at htexts
      rw [← hnames]
      exact htexts ▸ (List.mergeSort_perm names longerFirst).map _
    · exact .inr hfail
  · rw [hr]
    exact .inr ⟨err, rfl, herr⟩

lemma perm_named (h : ofBindings bs = .ok t) :
    (t.map Symbol.named).Perm (bs.map Binding.named) := by
  rcases ofBindings_cases bs with ⟨t', ht, hperm⟩ | ⟨err, herr, -⟩
  · rw [h] at ht
    cases ht
    exact hperm
  · rw [h] at herr
    cases herr

lemma perm_referents (h : ofBindings bs = .ok t) :
    (t.map Symbol.referent).Perm (bs.map Binding.referent) := by
  have hperm := (perm_named h).map Prod.snd
  rwa [List.map_map, List.map_map] at hperm

/-- No name is bound twice. -/
lemma nodup_of_number {names : List (Name × Referent σ)} {done : List (Symbol σ)} {slot : ℕ}
    (hdone : (done.map Symbol.name).Nodup) (h : number done slot names = .ok t) :
    (t.map Symbol.name).Nodup := by
  induction names generalizing done slot with
  | nil =>
    cases h
    rw [List.map_reverse]
    exact (List.reverse_perm _).nodup_iff.2 hdone
  | cons nr rest ih =>
    obtain ⟨n, r⟩ := nr
    unfold number at h
    split at h
    · cases h
    · rename_i hnew
      have hfree : n ∉ done.map Symbol.name := by simpa using hnew
      have hcons (k : Symbol.Kind σ) : (((⟨n, k⟩ : Symbol σ) :: done).map Symbol.name).Nodup :=
        List.nodup_cons.2 ⟨hfree, hdone⟩
      cases r with
      | «variable» v => exact ih (hcons _) h
      | function f => exact ih (hcons _) h

lemma nodup_names (h : ofBindings bs = .ok t) : (t.map Symbol.name).Nodup := by
  unfold ofBindings at h
  rcases hn : readNames maxBindings bs with err | names
  · rw [hn] at h
    cases h
  · rw [hn] at h
    have hnil : (([] : List (Symbol σ)).map Symbol.name).Nodup := List.nodup_nil
    exact nodup_of_number hnil h

lemma isNaming_of_bindings {err : Error} (h : ofBindings bs = .error err) : err.IsNaming := by
  rcases ofBindings_cases bs with ⟨t, ht, -⟩ | ⟨err', herr, hnaming⟩
  · rw [h] at ht
    cases ht
  · rw [h] at herr
    cases herr
    exact hnaming

/-- Where a name is found it is the one that is looked for. -/
lemma binds_of_indexOf? (h : ofBindings bs = .ok t) {name : Text} {i : ℕ}
    (hi : t.indexOf? name = some i) :
    ∃ s, t[i]? = some s ∧ s.name.text = name ∧ Binds bs name s.referent := by
  obtain ⟨hlt, hname, -⟩ := List.findIdx?_eq_some_iff_getElem.1 hi
  have htext : t[i].name.text = name := of_decide_eq_true hname
  refine ⟨t[i], List.getElem?_eq_getElem hlt, htext, ?_⟩
  have hmem : Symbol.named t[i] ∈ t.map Symbol.named :=
    List.mem_map_of_mem (List.getElem_mem hlt)
  have hbound := (perm_named h).mem_iff.1 hmem
  rwa [Symbol.named, htext] at hbound

/-- A name that is bound is found. -/
lemma indexOf?_of_binds (h : ofBindings bs = .ok t) {name : Text} {r : Referent σ}
    (hr : Binds bs name r) :
    ∃ i s, t.indexOf? name = some i ∧ t[i]? = some s ∧ s.name.text = name ∧ s.referent = r := by
  obtain ⟨s, hs, hnamed⟩ := List.mem_map.1 ((perm_named h).mem_iff.2 hr)
  obtain ⟨htext, href⟩ := Prod.mk.inj hnamed
  rcases hi : t.indexOf? name with _ | i
  · have hnone := List.findIdx?_eq_none_iff.1 hi s hs
    exact absurd htext (of_decide_eq_false hnone)
  · obtain ⟨s', hs', htext', -⟩ := binds_of_indexOf? h hi
    have hname : s'.name = s.name := Name.ext (htext'.trans htext.symm)
    have hsame : s' = s := List.inj_on_of_nodup_map (nodup_names h)
      (List.mem_of_getElem? hs') hs hname
    exact ⟨i, s, rfl, hsame ▸ hs', htext, href⟩

lemma map_snd_vars (t : SymbolTable σ) :
    t.vars.map Prod.snd = (t.map Symbol.referent).filterMap Referent.var? := by
  induction t with
  | nil => rfl
  | cons s t ih =>
    obtain ⟨n, v | f⟩ := s
    · exact congrArg (v :: ·) ih
    · exact ih

/-- The slots are for the variables of the bindings. -/
lemma perm_vars (h : ofBindings bs = .ok t) : (t.vars.map Prod.snd).Perm (boundVars bs) := by
  rw [map_snd_vars]
  exact (perm_referents h).filterMap Referent.var?

/-- A function of the table is one of the bindings. -/
lemma mem_of_functionAt? (h : ofBindings bs = .ok t) {i : ℕ} {n : Name} {f : HostFunction σ}
    (hf : t.functionAt? i = some (n, f)) : ∃ b ∈ bs, b.referent = .function f := by
  obtain ⟨s, hs, hk⟩ := Option.bind_eq_some_iff.1 hf
  have hmem : s.referent ∈ t.map Symbol.referent :=
    List.mem_map_of_mem (List.mem_of_getElem? hs)
  obtain ⟨b, hb, heq⟩ := List.mem_map.1 ((perm_referents h).mem_iff.1 hmem)
  obtain ⟨m, v | g⟩ := s
  · cases hk
  · cases hk
    exact ⟨b, hb, heq⟩

end SymbolTable

end Formula
