import Scriptlet.Lexical.Symbol

/-!
# `Scriptlet.Proofs.Lexical.Lexicon`: one symbol for one name

What a lexicon keeps while it issues symbols: each shared symbol has its own name and its own
number, and the symbols of reserved words are shared ones that spell these words. So shared
symbols are equal exactly when they spell the same name (`Sound.beq_iff`), and whether a
shared symbol is reserved can be told from its name (`Sound.keyword?_iff`): nothing depends on
the order in which the symbols were issued.

* `Lexicon.Knows`: the lexicon is in order, and knows some of the reserved words.
* `Lexicon.Grows`: what was shared stays shared.
-/

set_option autoImplicit false

namespace Scriptlet

/-- Reserved words differ in their spelling. -/
theorem Keyword.eq_of_text {k k' : Keyword} (h : k.text = k'.text) : k = k' := by
  revert h
  cases k <;> cases k' <;> decide

namespace Lexicon

/-- The lexicon is in order, and these reserved words have symbols. -/
structure Knows (words : List Keyword) (l : Lexicon) : Prop where
  tags : ∀ s ∈ l.interned, s.lexicon = l.tag
  serials : ∀ s ∈ l.interned, s.serial < l.issued
  eq_of_name : ∀ a ∈ l.interned, ∀ b ∈ l.interned, a.name = b.name → a = b
  eq_of_serial : ∀ a ∈ l.interned, ∀ b ∈ l.interned, a.serial = b.serial → a = b
  reserved : ∀ entry ∈ l.reserved, entry.1 ∈ l.interned ∧ entry.1.name = entry.2.text
  words : ∀ k ∈ words, ∃ s, (s, k) ∈ l.reserved

/-- The lexicon is in order and knows all reserved words. -/
abbrev Sound (l : Lexicon) : Prop := l.Knows Keyword.all

/-- The symbols that are shared in `l` are shared in `l'`, and no word was reserved or given
free in between. -/
structure Grows (l l' : Lexicon) : Prop where
  interned : l.interned ⊆ l'.interned
  reserved : l'.reserved = l.reserved

/-- A lexicon has grown from itself by nothing. -/
theorem Grows.refl (l : Lexicon) : l.Grows l := ⟨List.Subset.refl _, rfl⟩

/-- Growing goes on. -/
theorem Grows.trans {l l₁ l₂ : Lexicon} (h : l.Grows l₁) (h' : l₁.Grows l₂) : l.Grows l₂ :=
  ⟨List.Subset.trans h.interned h'.interned, h'.reserved.trans h.reserved⟩

/-! ### Issuing symbols -/

/-- A new symbol is added to those that there are. -/
theorem issue_grows (l : Lexicon) (name : String) : l.Grows (l.issue name).2 :=
  ⟨List.Subset.refl _, rfl⟩

/-- Asking for a shared symbol adds it, unless it is there. -/
theorem intern_grows (l : Lexicon) (name : String) : l.Grows (l.intern name).2 := by
  unfold intern
  split
  · exact .refl l
  · exact ⟨List.subset_cons_self _ _, rfl⟩

/-- The symbol of a name is shared from then on. -/
theorem mem_intern (l : Lexicon) (name : String) :
    (l.intern name).1 ∈ (l.intern name).2.interned := by
  unfold intern
  split
  case h_1 symbol h => exact List.mem_of_find?_eq_some h
  case h_2 => exact List.mem_cons_self

variable {words : List Keyword} {l : Lexicon}

/-- A symbol that is not shared takes a number, and nothing else changes. -/
theorem Knows.issue (h : l.Knows words) (name : String) : (l.issue name).2.Knows words :=
  { h with serials := fun s hs => Nat.lt_succ_of_lt (h.serials s hs) }

/-- A lexicon stays in order when a name is asked for: the name has one shared symbol, and the
reserved words keep theirs. -/
theorem Knows.intern (h : l.Knows words) (name : String) : (l.intern name).2.Knows words := by
  unfold Lexicon.intern
  split
  case h_1 => exact h
  case h_2 hfind =>
    -- The new symbol has a name and a number that no shared symbol has.
    have hname : ∀ s ∈ l.interned, s.name ≠ name := by
      intro s hs heq
      exact List.find?_eq_none.1 hfind s hs (beq_iff_eq.2 heq)
    have hserial : ∀ s ∈ l.interned, s.serial ≠ l.issued := by
      intro s hs
      exact Nat.ne_of_lt (h.serials s hs)
    constructor
    · rintro s (_ | ⟨_, hs⟩)
      · rfl
      · exact h.tags s hs
    · rintro s (_ | ⟨_, hs⟩)
      · exact Nat.lt_succ_self _
      · exact Nat.lt_succ_of_lt (h.serials s hs)
    · rintro a (_ | ⟨_, ha⟩) b (_ | ⟨_, hb⟩) heq
      · rfl
      · exact absurd heq.symm (hname b hb)
      · exact absurd heq (hname a ha)
      · exact h.eq_of_name a ha b hb heq
    · rintro a (_ | ⟨_, ha⟩) b (_ | ⟨_, hb⟩) heq
      · rfl
      · exact absurd heq.symm (hserial b hb)
      · exact absurd heq (hserial a ha)
      · exact h.eq_of_serial a ha b hb heq
    · intro entry hentry
      obtain ⟨hmem, htext⟩ := h.reserved entry hentry
      exact ⟨List.mem_cons_of_mem _ hmem, htext⟩
    · exact h.words

/-- A shared symbol is the one that is found for its name. -/
theorem Knows.intern_eq (h : l.Knows words) {s : Symbol} (hs : s ∈ l.interned) :
    (l.intern s.name).1 = s := by
  unfold Lexicon.intern Lexicon.find?
  split
  case h_1 s' hfind =>
    have hname := List.find?_some hfind
    exact h.eq_of_name s' (List.mem_of_find?_eq_some hfind) s hs (eq_of_beq hname)
  case h_2 hnone => exact absurd (beq_self_eq_true _) (List.find?_eq_none.1 hnone s hs)

/-- A word that gets its symbol is known from then on. -/
theorem Knows.reserve (h : l.Knows words) (k : Keyword) :
    (l.reserve k).Knows (words ++ [k]) := by
  have hmem := mem_intern l k.text
  have hname := name_intern l k.text
  have hnew := h.intern k.text
  refine { hnew with reserved := fun entry hentry => ?_, words := fun k' hk' => ?_ }
  · rcases List.mem_append.1 hentry with hentry | hentry
    · exact hnew.reserved entry hentry
    · cases List.mem_singleton.1 hentry
      exact ⟨hmem, hname⟩
  · rcases List.mem_append.1 hk' with hk' | hk'
    · obtain ⟨s, hs⟩ := hnew.words k' hk'
      exact ⟨s, List.mem_append_left _ hs⟩
    · cases List.mem_singleton.1 hk'
      exact ⟨_, List.mem_append_right _ (List.mem_singleton.2 rfl)⟩

/-- A new lexicon is in order. -/
theorem sound_new (tag : Nat) : (new tag).Sound := by
  -- What is known grows by one word at each step, from nothing to all of them.
  have hall : ∀ (more known : List Keyword) (l : Lexicon), l.Knows known →
      (more.foldl Lexicon.reserve l).Knows (known ++ more) := by
    intro more
    induction more with
    | nil =>
        intro known l h
        rwa [List.append_nil]
    | cons k more ih =>
        intro known l h
        have hmore := ih (known ++ [k]) (l.reserve k) (h.reserve k)
        rwa [List.append_assoc] at hmore
  exact hall Keyword.all [] ⟨tag, 0, [], []⟩ ⟨nofun, nofun, nofun, nofun, nofun, nofun⟩

/-! ### What shared symbols tell -/

/-- Shared symbols are equal when they spell the same. -/
theorem Knows.beq_iff (h : l.Knows words) {a b : Symbol} (ha : a ∈ l.interned)
    (hb : b ∈ l.interned) : (a == b) = true ↔ a.name = b.name := by
  rw [Symbol.beq_iff]
  constructor
  · rintro ⟨hserial, -⟩
    rw [h.eq_of_serial a ha b hb hserial]
  · intro hname
    rw [h.eq_of_name a ha b hb hname]
    exact ⟨rfl, rfl⟩

/-- A shared symbol is reserved for the word that it spells. -/
theorem Sound.keyword?_iff (h : l.Sound) {s : Symbol} (hs : s ∈ l.interned) {k : Keyword} :
    l.keyword? s = some k ↔ k.text = s.name := by
  have hfound : ∀ entry, l.reserved.find? (fun entry => entry.1 == s) = some entry →
      entry.2.text = s.name := by
    intro entry hfind
    obtain ⟨hmem, htext⟩ := h.reserved entry (List.mem_of_find?_eq_some hfind)
    have hbeq := List.find?_some hfind
    exact htext.symm.trans ((h.beq_iff hmem hs).1 hbeq)
  unfold keyword?
  constructor
  · intro hk
    obtain ⟨entry, hfind, rfl⟩ := Option.map_eq_some_iff.1 hk
    exact hfound entry hfind
  · intro htext
    -- The word has a symbol, which spells the same and therefore is found.
    obtain ⟨s', hs'⟩ := h.words k (Keyword.mem_all k)
    obtain ⟨hmem, htext'⟩ := h.reserved _ hs'
    have hbeq : (s' == s) = true := (h.beq_iff hmem hs).2 (htext'.trans htext)
    have hsome : (l.reserved.find? fun entry => entry.1 == s).isSome :=
      List.find?_isSome.2 ⟨(s', k), hs', hbeq⟩
    obtain ⟨entry, hfind⟩ := Option.isSome_iff_exists.1 hsome
    rw [hfind, Option.map_some, Option.some_inj]
    exact Keyword.eq_of_text ((hfound entry hfind).trans htext.symm)

end Lexicon

end Scriptlet
