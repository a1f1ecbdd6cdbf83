import Mathlib.Computability.Language
import ThriftLayout.Token

/-!
# The phrases of a document

The grammar of documents as languages over tokens: a construct is the set of the token lists that
spell it, put together from single tokens by choice, succession and repetition. Nothing here speaks
of how a document is read.

Type arguments and constant values contain themselves, so they are given by rules. `value_eq` is the
equation of constant values.
-/
namespace ThriftLayout.Phrase

open Computability

def one (k : TokenKind) : Language Token := {ts | ∃ t, ts = [t] ∧ t.kind = k}

def mark (m : Mark) : Language Token := one (.mark m)

def keyword (k : Keyword) : Language Token := one (.keyword k)

def optional (l : Language Token) : Language Token := 1 + l

def separator : Language Token := mark .comma + mark .semi

/-! ## Types -/

/-- The marks that type arguments hold in pairs only, or not at all. -/
def argumentMarks : List TokenKind :=
  [.mark .langle, .mark .rangle, .mark .lbrace, .mark .rbrace, .mark .semi]

/-- What stands between angle brackets: any tokens in which angle brackets are paired, without
braces and semicolons. -/
inductive IsNested : List Token → Prop where
  | nil : IsNested []
  | token {t : Token} {ts : List Token} (ht : t.kind ∉ argumentMarks) (hts : IsNested ts) :
      IsNested (t :: ts)
  | group {l r : Token} {inside ts : List Token} (hl : l.kind = .mark .langle)
      (hinside : IsNested inside) (hr : r.kind = .mark .rangle) (hts : IsNested ts) :
      IsNested (l :: (inside ++ r :: ts))

def nested : Language Token := {ts | IsNested ts}

def arguments : Language Token := mark .langle * nested * mark .rangle

def type : Language Token := one .identifier * optional arguments

/-! ## Constant values -/

/-- An item of a list with what separates it from the next. -/
structure Item where
  value : List Token
  separator : List Token

/-- An entry of a map with what separates it from the next. -/
structure Entry where
  key : List Token
  colon : List Token
  value : List Token
  separator : List Token

def Item.tokens (i : Item) : List Token := i.value ++ i.separator

def Entry.tokens (e : Entry) : List Token := e.key ++ (e.colon ++ (e.value ++ e.separator))

inductive IsValue : List Token → Prop where
  | word {t : Token} (h : t.kind ∈ [.int, .float, .string, .identifier]) : IsValue [t]
  | signed {s t : Token} (hs : s.kind ∈ [.mark .plus, .mark .minus])
      (ht : t.kind ∈ [.int, .float]) : IsValue [s, t]
  | list {l r : Token} {items : List Item} (hl : l.kind = .mark .lbracket)
      (hvalues : ∀ i ∈ items, IsValue i.value)
      (hseparators : ∀ i ∈ items, i.separator ∈ optional Phrase.separator)
      (hr : r.kind = .mark .rbracket) : IsValue (l :: (items.flatMap Item.tokens ++ [r]))
  | map {l r : Token} {entries : List Entry} (hl : l.kind = .mark .lbrace)
      (hkeys : ∀ e ∈ entries, IsValue e.key) (hcolons : ∀ e ∈ entries, e.colon ∈ mark .colon)
      (hvalues : ∀ e ∈ entries, IsValue e.value)
      (hseparators : ∀ e ∈ entries, e.separator ∈ optional Phrase.separator)
      (hr : r.kind = .mark .rbrace) : IsValue (l :: (entries.flatMap Entry.tokens ++ [r]))

def value : Language Token := {ts | IsValue ts}

def item : Language Token := value * optional separator

def entry : Language Token := value * mark .colon * value * optional separator

/-! ## Members -/

def annotations : Language Token :=
  mark .lparen * (one .identifier * optional (mark .equal * value) * optional separator)∗ *
    mark .rparen

/-- A whole number with its sign. -/
def number : Language Token := optional (mark .minus) * one .int

def field : Language Token :=
  optional (number * mark .colon) * optional (keyword .required + keyword .optional) * type *
    one .identifier * optional (mark .equal * value) * optional annotations * optional separator

def enumMember : Language Token :=
  one .identifier * optional (mark .equal * number) * optional annotations * optional separator

def senumMember : Language Token := one .string * optional annotations * optional separator

def params : Language Token := mark .lparen * field∗ * mark .rparen

def function : Language Token :=
  optional (keyword .oneway + keyword .async) * type * one .identifier * params *
    optional (keyword .throws * params) * optional annotations * optional separator

/-! ## Declarations -/

/-- The word `xsd_all`. -/
def xsdAll : Language Token :=
  {ts | ∃ t, ts = [t] ∧ t.kind = .identifier ∧ t.text = utf8 "xsd_all"}

/-- What stands before the members of a block, behind the word that opens it. -/
def header : Language Token :=
  one .identifier * optional (keyword .extendsBase * one .identifier) * optional xsdAll *
    mark .lbrace

/-- A declaration with members between braces. -/
def block (k : Keyword) (member : Language Token) : Language Token :=
  keyword k * header * member∗ * mark .rbrace * optional annotations * optional separator

def includeDecl (k : Keyword) : Language Token :=
  keyword k * one .string * optional separator

def namespaceDecl : Language Token :=
  keyword .namespaceName * (one .identifier + mark .star) * one .identifier *
    optional annotations * optional separator

def typedefDecl : Language Token :=
  keyword .typedef * type * one .identifier * optional annotations * optional separator

def constDecl : Language Token :=
  keyword .const * type * one .identifier * mark .equal * value * optional separator

/-- The declarations that start with a reserved word. -/
def declarationOf : Keyword → Language Token
  | .includeFile => includeDecl .includeFile
  | .cppInclude => includeDecl .cppInclude
  | .namespaceName => namespaceDecl
  | .typedef => typedefDecl
  | .const => constDecl
  | .enum => block .enum enumMember
  | .senum => block .senum senumMember
  | .struct => block .struct field
  | .union => block .union field
  | .exception => block .exception field
  | .service => block .service function
  | .extendsBase | .oneway | .async | .throws | .required | .optional => 0

def declaration : Language Token := {ts | ∃ k, ts ∈ declarationOf k}

def document : Language Token := declaration∗

/-! ## Membership -/

variable {l m : Language Token} {k : TokenKind} {t : Token} {ts : List Token}

theorem singleton_mem (h : t.kind = k) : [t] ∈ one k := ⟨t, rfl, h⟩

theorem nil_mem_optional : [] ∈ optional l := .inl rfl

theorem singleton_mem_mark {m : Mark} (h : t.kind = .mark m) : [t] ∈ mark m := ⟨t, rfl, h⟩

theorem mul_mem (hts : ts ∈ l) {us : List Token} (hus : us ∈ m) : ts ++ us ∈ l * m :=
  Language.append_mem_mul hts hus

theorem cons_mem_mul {l : Language Token} (ht : t.kind = k) (hts : ts ∈ l) :
    t :: ts ∈ one k * l := mul_mem (singleton_mem ht) hts

theorem optional_mul (l m : Language Token) : optional l * m = m + l * m := by
  rw [optional, add_mul, one_mul]

/-- A repetition and what ends it: nothing, or one more in front. -/
theorem kstar_mul (l m : Language Token) : l∗ * m = m + l * (l∗ * m) := by
  conv => lhs; rw [← Language.one_add_self_mul_kstar_eq_kstar]
  rw [add_mul, one_mul, mul_assoc]

theorem ne_nil_of_one (h : ts ∈ one k) : ts ≠ [] := by
  obtain ⟨t, rfl, -⟩ := h
  exact List.cons_ne_nil t []

theorem ne_nil_of_type (h : ts ∈ type) : ts ≠ [] := by
  obtain ⟨us, hus, vs, -, rfl⟩ := h
  exact List.append_ne_nil_of_left_ne_nil (ne_nil_of_one hus) vs

theorem ne_nil_of_number (h : ts ∈ number) : ts ≠ [] := by
  obtain ⟨us, -, vs, hvs, rfl⟩ := h
  exact List.append_ne_nil_of_right_ne_nil us (ne_nil_of_one hvs)

/-! ## Equations -/

theorem mem_items : ts ∈ item∗ ↔ ∃ items : List Item, ts = items.flatMap Item.tokens ∧
    (∀ i ∈ items, IsValue i.value) ∧ ∀ i ∈ items, i.separator ∈ optional Phrase.separator := by
  rw [Language.mem_kstar]
  constructor
  · rintro ⟨tss, rfl, htss⟩
    induction tss with
    | nil => exact ⟨[], rfl, nofun, nofun⟩
    | cons ts tss ih =>
      rw [List.forall_mem_cons] at htss
      obtain ⟨items, hflat, hvalues, hseparators⟩ := ih htss.2
      obtain ⟨v, hv, s, hs, rfl⟩ := htss.1
      refine ⟨⟨v, s⟩ :: items, by rw [List.flatten_cons, hflat]; rfl, ?_, ?_⟩
      · exact List.forall_mem_cons.mpr ⟨hv, hvalues⟩
      · exact List.forall_mem_cons.mpr ⟨hs, hseparators⟩
  · rintro ⟨items, rfl, hvalues, hseparators⟩
    refine ⟨items.map Item.tokens, by rw [List.flatMap_def], fun ts hts => ?_⟩
    obtain ⟨i, hi, rfl⟩ := List.mem_map.mp hts
    exact mul_mem (hvalues i hi) (hseparators i hi)

theorem mem_entries : ts ∈ entry∗ ↔ ∃ entries : List Entry, ts = entries.flatMap Entry.tokens ∧
    (∀ e ∈ entries, IsValue e.key) ∧ (∀ e ∈ entries, e.colon ∈ mark .colon) ∧
    (∀ e ∈ entries, IsValue e.value) ∧
    ∀ e ∈ entries, e.separator ∈ optional Phrase.separator := by
  rw [Language.mem_kstar]
  constructor
  · rintro ⟨tss, rfl, htss⟩
    induction tss with
    | nil => exact ⟨[], rfl, nofun, nofun, nofun, nofun⟩
    | cons ts tss ih =>
      rw [List.forall_mem_cons] at htss
      obtain ⟨entries, hflat, hkeys, hcolons, hvalues, hseparators⟩ := ih htss.2
      have hentry := htss.1
      rw [entry, mul_assoc, mul_assoc] at hentry
      obtain ⟨k, hk, _, ⟨c, hc, _, ⟨v, hv, s, hs, rfl⟩, rfl⟩, rfl⟩ := hentry
      refine ⟨⟨k, c, v, s⟩ :: entries, by rw [List.flatten_cons, hflat]; rfl, ?_, ?_, ?_, ?_⟩
      · exact List.forall_mem_cons.mpr ⟨hk, hkeys⟩
      · exact List.forall_mem_cons.mpr ⟨hc, hcolons⟩
      · exact List.forall_mem_cons.mpr ⟨hv, hvalues⟩
      · exact List.forall_mem_cons.mpr ⟨hs, hseparators⟩
  · rintro ⟨entries, rfl, hkeys, hcolons, hvalues, hseparators⟩
    refine ⟨entries.map Entry.tokens, by rw [List.flatMap_def], fun ts hts => ?_⟩
    obtain ⟨e, he, rfl⟩ := List.mem_map.mp hts
    rw [entry, mul_assoc, mul_assoc]
    exact mul_mem (hkeys e he) (mul_mem (hcolons e he) (mul_mem (hvalues e he) (hseparators e he)))

/-- A constant value: a word, a number with a sign, a list or a map. -/
theorem value_eq : value = one .int + one .float + one .string + one .identifier +
    (mark .plus + mark .minus) * (one .int + one .float) +
    mark .lbracket * (item∗ * mark .rbracket) + mark .lbrace * (entry∗ * mark .rbrace) := by
  ext ts
  constructor
  · intro h
    cases h with
    | @word t h =>
      rw [List.mem_cons, List.mem_cons, List.mem_cons, List.mem_singleton] at h
      refine .inl (.inl (.inl ?_))
      rcases h with h | h | h | h
      · exact .inl (.inl (.inl (singleton_mem h)))
      · exact .inl (.inl (.inr (singleton_mem h)))
      · exact .inl (.inr (singleton_mem h))
      · exact .inr (singleton_mem h)
    | @signed s t hs ht =>
      rw [List.mem_pair] at hs ht
      refine .inl (.inl (.inr (@mul_mem _ _ [s] ?_ [t] ?_)))
      · exact hs.imp singleton_mem singleton_mem
      · exact ht.imp singleton_mem singleton_mem
    | list hl hvalues hseparators hr =>
      exact .inl (.inr (cons_mem_mul hl
        (mul_mem (mem_items.mpr ⟨_, rfl, hvalues, hseparators⟩) (singleton_mem hr))))
    | map hl hkeys hcolons hvalues hseparators hr =>
      exact .inr (cons_mem_mul hl
        (mul_mem (mem_entries.mpr ⟨_, rfl, hkeys, hcolons, hvalues, hseparators⟩)
          (singleton_mem hr)))
  · rintro (((h | ⟨_, hs, _, ht, rfl⟩) |
      ⟨_, ⟨l, rfl, hl⟩, _, ⟨_, hitems, _, ⟨r, rfl, hr⟩, rfl⟩, rfl⟩) |
      ⟨_, ⟨l, rfl, hl⟩, _, ⟨_, hentries, _, ⟨r, rfl, hr⟩, rfl⟩, rfl⟩)
    · rcases h with ((⟨t, rfl, h⟩ | ⟨t, rfl, h⟩) | ⟨t, rfl, h⟩) | ⟨t, rfl, h⟩ <;>
        exact .word (by simp [h])
    · rcases hs with ⟨s, rfl, hs⟩ | ⟨s, rfl, hs⟩ <;> rcases ht with ⟨t, rfl, ht⟩ | ⟨t, rfl, ht⟩ <;>
        exact .signed (by simp [hs]) (by simp [ht])
    · obtain ⟨items, rfl, hvalues, hseparators⟩ := mem_items.mp hitems
      exact .list hl hvalues hseparators hr
    · obtain ⟨entries, rfl, hkeys, hcolons, hvalues, hseparators⟩ := mem_entries.mp hentries
      exact .map hl hkeys hcolons hvalues hseparators hr

end ThriftLayout.Phrase
