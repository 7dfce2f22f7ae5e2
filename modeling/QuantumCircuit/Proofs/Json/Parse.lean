import QuantumCircuit.Json.Parse
import QuantumCircuit.Proofs.Json.Scan

/-! Values are read back from their compact text, whatever they hold, as long as their
literals have no superfluous zeros. -/
namespace QuantumCircuit.Json

/-- Induction in which a container may use the statement for what it holds. -/
@[elab_as_elim] theorem inductionOn {motive : Json → Prop} (v : Json) (null : motive .null)
    (bool : ∀ b, motive (.bool b)) (number : ∀ n, motive (.number n))
    (string : ∀ s, motive (.string s))
    (array : ∀ items, (∀ v ∈ items, motive v) → motive (.array items))
    (object : ∀ members, (∀ m ∈ members, motive m.2) → motive (.object members)) : motive v :=
  @Json.rec motive (fun items => ∀ v ∈ items, motive v) (fun members => ∀ m ∈ members, motive m.2)
    (fun m => motive m.2) null bool number string array object (by simp)
    (fun _ _ hhead htail => List.forall_mem_cons.2 ⟨hhead, htail⟩) (by simp)
    (fun _ _ hhead htail => List.forall_mem_cons.2 ⟨hhead, htail⟩) (fun _ _ h => h) v

/-! ## Tokens of a value -/

/-- The tokens of one member of an object. -/
def entryTokens (m : Option String × Json) : List Token := .string m.1 :: .colon :: m.2.tokens

theorem itemTokens_cons (v w : Json) (rest : List Json) :
    itemTokens (v :: w :: rest) = v.tokens ++ .comma :: itemTokens (w :: rest) := by
  rw [itemTokens]
  intro h
  cases h

theorem memberTokens_cons (m m' : Option String × Json) (rest : List (Option String × Json)) :
    memberTokens (m :: m' :: rest) = entryTokens m ++ .comma :: memberTokens (m' :: rest) := by
  rw [memberTokens]
  · rfl
  · intro h
    cases h

/-- No value starts with a closing bracket. -/
theorem exists_tokens (v : Json) :
    ∃ t ts, v.tokens = t :: ts ∧ t ≠ .closeArray ∧ t ≠ .closeObject := by
  cases v <;> exact ⟨_, _, rfl, by simp, by simp⟩

section pieces
variable {P : List Token → Prop} (hnil : P [])
  (hcomma : ∀ {as bs : List Token}, P as → P bs → P (as ++ .comma :: bs))
include hnil hcomma

/-- What holds of the items and is kept by a comma between them holds of the tokens of
an array. -/
theorem itemTokens_of {items : List Json} (h : ∀ v ∈ items, P v.tokens) : P (itemTokens items) := by
  induction items with
  | nil => exact hnil
  | cons v items ih =>
    have hv := h v List.mem_cons_self
    cases items with
    | nil => exact hv
    | cons w rest =>
      rw [itemTokens_cons]
      exact hcomma hv (ih fun u hu => h u (List.mem_cons_of_mem _ hu))

theorem memberTokens_of {members : List (Option String × Json)}
    (h : ∀ m ∈ members, P (entryTokens m)) : P (memberTokens members) := by
  induction members with
  | nil => exact hnil
  | cons m members ih =>
    have hm := h m List.mem_cons_self
    cases members with
    | nil => exact hm
    | cons m' rest =>
      rw [memberTokens_cons]
      exact hcomma hm (ih fun u hu => h u (List.mem_cons_of_mem _ hu))

end pieces

/-! ## Reading -/

/-- What is read of a value, given enough fuel. -/
def Reads (v : Json) : Prop :=
  ∀ n rest, v.tokens.length ≤ n → readValue n (v.tokens ++ rest) = some (v, rest)

theorem readItems_itemTokens {items : List Json} (hne : items ≠ []) (h : ∀ v ∈ items, v.Reads)
    {n : Nat} (rest : List Token) (hn : (itemTokens items).length < n) :
    readItems n (itemTokens items ++ .closeArray :: rest) = some (items, rest) := by
  induction items generalizing n with
  | nil => exact absurd rfl hne
  | cons v items ih =>
    obtain ⟨n, rfl⟩ : ∃ k, n = k + 1 := ⟨n - 1, by omega⟩
    have hv := h v List.mem_cons_self
    cases items with
    | nil =>
      have hlen : v.tokens.length ≤ n := by
        simp only [itemTokens] at hn
        omega
      rw [itemTokens, readItems, hv n _ hlen]
    | cons w rest' =>
      rw [itemTokens_cons] at hn ⊢
      rw [List.length_append, List.length_cons] at hn
      rw [List.append_assoc, List.cons_append, readItems, hv n _ (by omega)]
      dsimp only
      rw [ih (by simp) (fun u hu => h u (List.mem_cons_of_mem _ hu)) (by omega)]
      rfl

theorem readMembers_memberTokens {members : List (Option String × Json)} (hne : members ≠ [])
    (h : ∀ m ∈ members, m.2.Reads) {n : Nat} (rest : List Token)
    (hn : (memberTokens members).length < n) :
    readMembers n (memberTokens members ++ .closeObject :: rest) = some (members, rest) := by
  induction members generalizing n with
  | nil => exact absurd rfl hne
  | cons m members ih =>
    obtain ⟨n, rfl⟩ : ∃ k, n = k + 1 := ⟨n - 1, by omega⟩
    have hm := h m List.mem_cons_self
    obtain ⟨k, v⟩ := m
    cases members with
    | nil =>
      have hlen : v.tokens.length ≤ n := by
        simp only [memberTokens, List.length_cons] at hn
        omega
      rw [memberTokens, List.cons_append, List.cons_append, readMembers, hm n _ hlen]
    | cons m' rest' =>
      rw [memberTokens_cons, entryTokens] at hn ⊢
      simp only [List.length_append, List.length_cons] at hn
      simp only [List.append_assoc, List.cons_append]
      rw [readMembers, hm n _ (by dsimp only; omega)]
      dsimp only
      rw [ih (by simp) (fun u hu => h u (List.mem_cons_of_mem _ hu)) (by omega)]
      rfl

theorem reads (v : Json) : v.Reads := by
  induction v using inductionOn with
  | array items ih =>
    intro n rest hn
    rw [tokens, List.length_cons, List.length_append, List.length_singleton] at hn
    obtain ⟨n, rfl⟩ : ∃ k, n = k + 1 := ⟨n - 1, by omega⟩
    rw [tokens, List.cons_append, List.append_assoc, List.singleton_append]
    cases items with
    | nil => rfl
    | cons v items =>
      have hopen : ∀ ts, itemTokens (v :: items) ++ .closeArray :: rest ≠ .closeArray :: ts := by
        intro ts
        obtain ⟨t, tail, htail, hne, -⟩ := v.exists_tokens
        cases items with
        | nil => simp [itemTokens, htail, hne]
        | cons w items => simp [itemTokens_cons, htail, hne]
      rw [readValue, readItems_itemTokens (by simp) ih rest (by omega)]
      · rfl
      · exact hopen
  | object members ih =>
    intro n rest hn
    rw [tokens, List.length_cons, List.length_append, List.length_singleton] at hn
    obtain ⟨n, rfl⟩ : ∃ k, n = k + 1 := ⟨n - 1, by omega⟩
    rw [tokens, List.cons_append, List.append_assoc, List.singleton_append]
    cases members with
    | nil => rfl
    | cons m members =>
      have hopen : ∀ ts, memberTokens (m :: members) ++ .closeObject :: rest ≠
          .closeObject :: ts := by
        intro ts
        cases members with
        | nil => simp [memberTokens]
        | cons m' members => simp [memberTokens_cons, entryTokens]
      rw [readValue, readMembers_memberTokens (by simp) ih rest (by omega)]
      · rfl
      · exact hopen
  | _ =>
    intro n rest hn
    rw [tokens, List.length_singleton] at hn
    obtain ⟨n, rfl⟩ : ∃ k, n = k + 1 := ⟨n - 1, by omega⟩
    rfl

/-! ## Numbers stand apart -/

/-- No number follows a number. -/
def Apart (ts : List Token) : Prop :=
  ts.IsChain fun t u => t.isNumber = true → u.isNumber = false

/-- A token that is no number may stand between any others. -/
theorem Apart.append_cons {as bs : List Token} {t : Token} (has : Apart as) (hbs : Apart bs)
    (ht : t.isNumber = false) : Apart (as ++ t :: bs) := by
  refine List.isChain_append.2 ⟨has, List.isChain_cons.2 ⟨?_, hbs⟩, ?_⟩
  · intro u _ hnumber
    rw [ht] at hnumber
    cases hnumber
  · intro u _ t' ht' _
    cases ht'
    exact ht

theorem Apart.cons {ts : List Token} {t : Token} (h : Apart ts) (ht : t.isNumber = false) :
    Apart (t :: ts) :=
  Apart.append_cons .nil h ht

theorem apart_tokens (v : Json) : Apart v.tokens := by
  have hcomma : ∀ {as bs : List Token}, Apart as → Apart bs → Apart (as ++ .comma :: bs) :=
    fun has hbs => has.append_cons hbs rfl
  induction v using inductionOn with
  | array items ih => exact ((itemTokens_of .nil hcomma ih).append_cons .nil rfl).cons rfl
  | object members ih =>
    have hmembers : Apart (memberTokens members) :=
      memberTokens_of .nil hcomma fun m hm => ((ih m hm).cons rfl).cons rfl
    exact (hmembers.append_cons .nil rfl).cons rfl
  | _ => exact .singleton _

/-! ## Values from text -/

/-- The literals of the value have no superfluous zeros. -/
def IsPlain (v : Json) : Prop := ∀ t ∈ v.tokens, t.IsPlain

theorem isPlain_comma {as bs : List Token} (has : ∀ t ∈ as, t.IsPlain)
    (hbs : ∀ t ∈ bs, t.IsPlain) : ∀ t ∈ as ++ .comma :: bs, t.IsPlain := by
  rw [List.forall_mem_append, List.forall_mem_cons]
  exact ⟨has, trivial, hbs⟩

theorem isPlain_array {items : List Json} (h : ∀ v ∈ items, v.IsPlain) :
    (Json.array items).IsPlain := by
  have hitems : ∀ t ∈ itemTokens items, t.IsPlain :=
    itemTokens_of (P := fun ts => ∀ t ∈ ts, t.IsPlain) (by simp) isPlain_comma h
  rw [IsPlain, tokens, List.forall_mem_cons, List.forall_mem_append, List.forall_mem_singleton]
  exact ⟨trivial, hitems, trivial⟩

theorem isPlain_record {members : List (String × Json)} (h : ∀ m ∈ members, m.2.IsPlain) :
    (record members).IsPlain := by
  have hentry : ∀ m ∈ members, ∀ t ∈ entryTokens (some m.1, m.2), t.IsPlain := by
    intro m hm
    rw [entryTokens, List.forall_mem_cons, List.forall_mem_cons]
    exact ⟨trivial, trivial, h m hm⟩
  have hmembers : ∀ t ∈ memberTokens (members.map fun m => (some m.1, m.2)), t.IsPlain :=
    memberTokens_of (P := fun ts => ∀ t ∈ ts, t.IsPlain) (by simp) isPlain_comma
      (List.forall_mem_map.2 hentry)
  rw [record, IsPlain, tokens, List.forall_mem_cons, List.forall_mem_append,
    List.forall_mem_singleton]
  exact ⟨trivial, hmembers, trivial⟩

theorem isPlain_number {n : Numeral} (h : n.IsPlain) : (Json.number n).IsPlain := by
  rw [IsPlain, tokens, List.forall_mem_singleton]
  exact h

theorem parse?_write {v : Json} (h : v.IsPlain) : parse? v.write = some v := by
  have hscan : scan v.write.toList = some v.tokens := by
    rw [write, String.toList_ofList]
    exact scan_flatMap_chars h v.apart_tokens
  have hread := v.reads v.tokens.length [] (Nat.le_refl _)
  rw [List.append_nil] at hread
  rw [parse?, hscan]
  dsimp only
  rw [hread]

end QuantumCircuit.Json
