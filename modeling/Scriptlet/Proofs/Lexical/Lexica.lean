import Mathlib.Logic.Function.Basic
import Scriptlet.Proofs.Lexical.Lexeme

/-!
# `Scriptlet.Proofs.Lexical.Lexica`: several lexicons side by side

A `Shelf` is a row of lexicons with different tags, and a list of all symbols that were obtained
from them, each with the `Lexicon.Request` that it answers. A shelf is put to `Use` in any order: a
name's shared symbol is asked for, a symbol of its own is made, a source is scanned, a symbol is
looked up among the reserved words. Scanning is nothing but requests too, one for each token
(`Scan.serve_tokens`).

* `Lexicon.Gave`: a symbol answers a request, and what this still means after further requests.
* `Shelf.InOrder`: the invariant, kept by one request (`InOrder.serve`) and by every use.
* `symbols_stand_for_names`: shared symbols of one lexicon are equal when their names are, and no
  other two symbols are equal; reserved words are told by lexicon and name alone; a scan adds the
  names of its tokens, but for the spellings of constants.
-/

set_option autoImplicit false

namespace Scriptlet

/-! ### Requests -/

/-- What is asked of a lexicon. -/
inductive Lexicon.Request where
  /-- The symbol that everybody gets who asks for the name. -/
  | shared (name : String)
  /-- A symbol that nobody else gets. -/
  | own (name : String)
  deriving DecidableEq, Repr

/-- The name that the symbol has to spell. -/
def Lexicon.Request.name : Lexicon.Request → String
  | shared name | own name => name

/-- What a scanner asks for when it comes upon the token: the spellings of constants are not
shared. -/
def Token.request (t : Token) : Lexicon.Request :=
  if t.kind.isConstant then .own t.name else .shared t.name

/-- The shared symbol of a name is asked for by a token other than a constant with this name. -/
theorem Token.request_eq_shared {t : Token} {name : String} :
    t.request = .shared name ↔ t.kind.isConstant = false ∧ t.name = name := by
  unfold request
  cases t.kind.isConstant <;> simp

namespace Lexicon

/-- Answers a request. -/
def serve (l : Lexicon) : Request → Symbol × Lexicon
  | .shared name => l.intern name
  | .own name => l.detach name

/-- The three ways to answer a request: by the symbol that the name has already, by its first
shared symbol, and by a symbol that is not shared. -/
theorem serve_cases (l : Lexicon) (r : Request) :
    (∃ s ∈ l.interned, r = .shared s.name ∧ l.serve r = (s, l)) ∨
    (∃ name, r = .shared name ∧ name ∉ l.names ∧ l.serve r = (⟨l.tag, l.issued, name⟩,
      { l with issued := l.issued + 1, interned := ⟨l.tag, l.issued, name⟩ :: l.interned })) ∨
    (∃ name, r = .own name ∧
      l.serve r = (⟨l.tag, l.issued, name⟩, { l with issued := l.issued + 1 })) := by
  cases r with
  | own name => exact .inr (.inr ⟨name, rfl, rfl⟩)
  | shared name =>
      cases hfind : l.find? name with
      | some s =>
          have hmem : s ∈ l.interned := List.mem_of_find?_eq_some hfind
          have hname := List.find?_some hfind
          -- A symbol that is found has the name that was looked for.
          refine .inl ⟨s, hmem, by rw [eq_of_beq hname], ?_⟩
          simp only [serve, intern, hfind]
      | none =>
          refine .inr (.inl ⟨name, rfl, fun hname => ?_, ?_⟩)
          · obtain ⟨s, hs, rfl⟩ := List.mem_map.1 hname
            exact absurd (beq_self_eq_true s.name) (List.find?_eq_none.1 hfind s hs)
          · simp only [serve, intern, hfind, issue]

/-- No request changes the tag. -/
theorem tag_serve (l : Lexicon) (r : Request) : (l.serve r).2.tag = l.tag := by
  obtain ⟨s, -, -, h⟩ | ⟨name, -, -, h⟩ | ⟨name, -, h⟩ := l.serve_cases r <;> rw [h]

variable {words : List Keyword} {l : Lexicon}

/-- No request takes the reserved words away. -/
theorem Knows.serve (h : l.Knows words) (r : Request) : (l.serve r).2.Knows words := by
  cases r with
  | shared name => exact h.intern name
  | own name => exact h.issue name

/-- A name has a shared symbol once it was asked for. -/
theorem mem_names_serve (l : Lexicon) (r : Request) (name : String) :
    name ∈ (l.serve r).2.names ↔ name ∈ l.names ∨ r = .shared name := by
  obtain ⟨s, hs, rfl, h⟩ | ⟨first, rfl, -, h⟩ | ⟨own, rfl, h⟩ := l.serve_cases r
  · rw [h]
    constructor
    · exact .inl
    · rintro (hname | hname)
      · exact hname
      · cases hname
        exact List.mem_map_of_mem hs
  · rw [h]
    simp only [names, List.map_cons, List.mem_cons, Request.shared.injEq]
    rw [or_comm, eq_comm]
  · rw [h]
    simp [names]

/-- The names in a new lexicon are the reserved words. -/
theorem mem_names_new (tag : Nat) (name : String) :
    name ∈ (new tag).names ↔ ∃ k : Keyword, k.text = name := by
  have hall : ∀ (ks : List Keyword) (l : Lexicon),
      name ∈ (ks.foldl reserve l).names ↔ name ∈ l.names ∨ ∃ k ∈ ks, k.text = name := by
    intro ks
    induction ks with
    | nil => simp
    | cons k ks ih =>
        intro l
        have hfirst : name ∈ (l.reserve k).names ↔ name ∈ l.names ∨ k.text = name := by
          have h := mem_names_serve l (.shared k.text) name
          rwa [Request.shared.injEq] at h
        rw [List.foldl_cons, ih, hfirst, or_assoc]
        simp only [List.mem_cons, exists_eq_or_imp]
  have hnew := hall Keyword.all ⟨tag, 0, [], []⟩
  simpa [Keyword.mem_all, names, new] using hnew

/-- A new lexicon has the tag that it was made with. -/
theorem tag_new (tag : Nat) : (new tag).tag = tag := by
  have hall : ∀ (ks : List Keyword) (l : Lexicon), (ks.foldl reserve l).tag = l.tag := by
    intro ks
    induction ks with
    | nil => exact fun _ => rfl
    | cons k ks ih => exact fun l => (ih _).trans (tag_serve l (.shared k.text))
  exact hall Keyword.all ⟨tag, 0, [], []⟩

/-! ### Symbols that were given out -/

/-- The lexicon gave out the symbol for this request. -/
structure Gave (l : Lexicon) (r : Request) (s : Symbol) : Prop where
  tag : s.lexicon = l.tag
  serial : s.serial < l.issued
  name : s.name = r.name
  shared : ∀ name, r = .shared name → s ∈ l.interned
  own : ∀ name, r = .own name → ∀ other ∈ l.interned, other.serial ≠ s.serial

/-- A request is answered by a symbol of its own name, from this lexicon. -/
theorem serve_gave (h : l.Sound) (r : Request) : (l.serve r).2.Gave r (l.serve r).1 := by
  obtain ⟨s, hs, rfl, hserve⟩ | ⟨name, rfl, -, hserve⟩ | ⟨name, rfl, hserve⟩ := l.serve_cases r
  · rw [hserve]
    exact ⟨h.tags s hs, h.serials s hs, rfl, fun _ _ => hs, nofun⟩
  · rw [hserve]
    exact ⟨rfl, Nat.lt_succ_self _, rfl, fun _ _ => List.mem_cons_self, nofun⟩
  · rw [hserve]
    exact ⟨rfl, Nat.lt_succ_self _, rfl, nofun,
      fun _ _ other hother => Nat.ne_of_lt (h.serials other hother)⟩

/-- Later requests take nothing back. -/
theorem Gave.serve {r : Request} {s : Symbol} (h : l.Gave r s) (r' : Request) :
    (l.serve r').2.Gave r s := by
  obtain ⟨s', -, -, hserve⟩ | ⟨name, -, -, hserve⟩ | ⟨name, -, hserve⟩ := l.serve_cases r'
  · rwa [hserve]
  · rw [hserve]
    refine ⟨h.tag, Nat.lt_succ_of_lt h.serial, h.name,
      fun name hr => List.mem_cons_of_mem _ (h.shared name hr), fun own hr => ?_⟩
    rintro other (_ | ⟨_, hother⟩)
    · exact (Nat.ne_of_lt h.serial).symm
    · exact h.own own hr other hother
  · rw [hserve]
    exact ⟨h.tag, Nat.lt_succ_of_lt h.serial, h.name, h.shared, h.own⟩

/-- A symbol given out before equals the one that a request gives when both are the shared symbol
of one name. -/
theorem Gave.beq_serve_iff (hl : l.Sound) {r : Request} {s : Symbol} (h : l.Gave r s)
    (r' : Request) :
    (s == (l.serve r').1) = true ↔ ∃ name, r = .shared name ∧ r' = .shared name := by
  have hgave := serve_gave hl r'
  have hkept := h.serve r'
  -- Only two requests for shared symbols can meet. A symbol of one's own has a number that no other
  -- has.
  cases r with
  | shared name =>
      cases r' with
      | shared name' =>
          have hmem := hkept.shared name rfl
          rw [Knows.beq_iff (hl.serve _) hmem (hgave.shared name' rfl), h.name, hgave.name]
          simp [Request.name, eq_comm]
      | own name' =>
          have hserial := hgave.own name' rfl s (hkept.shared name rfl)
          simp [Symbol.beq_iff, hserial]
  | own name =>
      cases r' with
      | shared name' =>
          have hserial := hkept.own name rfl _ (hgave.shared name' rfl)
          simp [Symbol.beq_iff, hserial.symm]
      | own name' =>
          have hserial : s.serial ≠ (l.serve (.own name')).1.serial := Nat.ne_of_lt h.serial
          simp [Symbol.beq_iff, hserial]

/-- Among the symbols that a lexicon gave out, the shared ones of reserved words are reserved. -/
theorem Gave.keyword?_iff (hl : l.Sound) {r : Request} {s : Symbol} (h : l.Gave r s)
    (k : Keyword) : l.keyword? s = some k ↔ r = .shared k.text := by
  cases r with
  | shared name =>
      rw [hl.keyword?_iff (h.shared name rfl), h.name, Request.shared.injEq]
      exact eq_comm
  | own name =>
      -- The reserved symbols are shared, and this one is none of them.
      have hnone : l.keyword? s = none := by
        rw [keyword?, Option.map_eq_none_iff, List.find?_eq_none]
        intro entry hentry hbeq
        have hmem := (hl.reserved entry hentry).1
        exact h.own name rfl _ hmem (Symbol.beq_iff.1 hbeq).1
      simp [hnone]

/-- A symbol of another lexicon is not reserved. -/
theorem keyword?_foreign (hl : l.Sound) {s : Symbol} (h : s.lexicon ≠ l.tag) :
    l.keyword? s = none := by
  rw [keyword?, Option.map_eq_none_iff, List.find?_eq_none]
  intro entry hentry hbeq
  have htag := hl.tags _ (hl.reserved entry hentry).1
  exact h ((Symbol.beq_iff.1 hbeq).2.symm.trans htag)

end Lexicon

/-! ### Shelves -/

/-- A symbol, and how it was obtained. -/
structure Obtained (n : Nat) where
  /-- The place of the lexicon that gave it out. -/
  place : Fin n
  request : Lexicon.Request
  symbol : Symbol

/-- Both are the shared symbol of one name in one lexicon. -/
def Obtained.Together {n : Nat} (a b : Obtained n) : Prop :=
  a.place = b.place ∧ ∃ name, a.request = .shared name ∧ b.request = .shared name

/-- Being the shared symbol of one name goes both ways. -/
theorem Obtained.Together.symm {n : Nat} {a b : Obtained n} (h : a.Together b) : b.Together a := by
  obtain ⟨hplace, name, ha, hb⟩ := h
  exact ⟨hplace.symm, name, hb, ha⟩

/-- Lexicons side by side. -/
structure Shelf (n : Nat) where
  lexica : Fin n → Lexicon
  /-- All symbols that were obtained, in the order in which they were. -/
  obtained : List (Obtained n)

/-- What a shelf may be used for. -/
inductive Use (n : Nat) where
  /-- Asks for the shared symbol of a name. -/
  | symbol (place : Fin n) (name : String)
  /-- Asks whether a symbol is reserved. -/
  | keyword (place : Fin n) (s : Symbol)
  /-- Makes a symbol that is not shared. -/
  | detach (place : Fin n) (name : String)
  /-- Scans a source. -/
  | scan (place : Fin n) (source : String)

namespace Shelf

variable {n : Nat}

/-- New lexicons, told apart by their tags. -/
def new (n : Nat) : Shelf n := ⟨fun place => .new place, []⟩

/-- Has a request answered. -/
def serve (shelf : Shelf n) (place : Fin n) (r : Lexicon.Request) : Shelf n :=
  let (symbol, l) := (shelf.lexica place).serve r
  ⟨Function.update shelf.lexica place l, shelf.obtained ++ [⟨place, r, symbol⟩]⟩

/-- A request changes the lexicon at its own place. -/
@[simp] theorem lexica_serve (shelf : Shelf n) (place : Fin n) (r : Lexicon.Request) :
    (shelf.serve place r).lexica
      = Function.update shelf.lexica place ((shelf.lexica place).serve r).2 := rfl

/-- The answer to a request is obtained last. -/
@[simp] theorem obtained_serve (shelf : Shelf n) (place : Fin n) (r : Lexicon.Request) :
    (shelf.serve place r).obtained
      = shelf.obtained ++ [⟨place, r, ((shelf.lexica place).serve r).1⟩] := rfl

/-- Has a source scanned, which gives the symbols of its tokens. -/
def scan (shelf : Shelf n) (place : Fin n) (x : Scan) : Shelf n :=
  ⟨Function.update shelf.lexica place x.lexicon,
    shelf.obtained ++ x.tokens.map fun t => ⟨place, t.request, t.lexeme⟩⟩

/-- Puts the shelf to use. To ask whether a symbol is reserved changes nothing. -/
def use (shelf : Shelf n) : Use n → Shelf n
  | .symbol place name => shelf.serve place (.shared name)
  | .keyword _ _ => shelf
  | .detach place name => shelf.serve place (.own name)
  | .scan place source => shelf.scan place (Scriptlet.scan source (shelf.lexica place))

/-- The shelf after it was put to some uses. -/
def after (shelf : Shelf n) (uses : List (Use n)) : Shelf n := uses.foldl use shelf

/-- All symbols obtained from these lexicons are accounted for. -/
structure InOrder (shelf : Shelf n) : Prop where
  sound : ∀ place, (shelf.lexica place).Sound
  tag : ∀ place, (shelf.lexica place).tag = place
  gave : ∀ a ∈ shelf.obtained, (shelf.lexica a.place).Gave a.request a.symbol
  told : shelf.obtained.Pairwise fun a b => (a.symbol == b.symbol) = true ↔ a.Together b
  names : ∀ place name, name ∈ (shelf.lexica place).names ↔ (∃ k : Keyword, k.text = name) ∨
    ∃ a ∈ shelf.obtained, a.place = place ∧ a.request = .shared name

/-- New lexicons are in order, and nothing was obtained yet. -/
theorem inOrder_new (n : Nat) : (new n).InOrder where
  sound place := Lexicon.sound_new place
  tag place := Lexicon.tag_new place
  gave := nofun
  told := .nil
  names place name := by simp [new, Lexicon.mem_names_new]

/-- One request leaves everything in order. -/
theorem InOrder.serve {shelf : Shelf n} (h : shelf.InOrder) (place : Fin n) (r : Lexicon.Request) :
    (shelf.serve place r).InOrder := by
  have hl := h.sound place
  refine ⟨fun p => ?_, fun p => ?_, fun a ha => ?_, ?_, fun p name => ?_⟩
  case refine_1 =>
    by_cases hp : p = place
    · subst hp
      simpa using hl.serve r
    · simpa [hp] using h.sound p
  case refine_2 =>
    by_cases hp : p = place
    · subst hp
      simpa [Lexicon.tag_serve] using h.tag p
    · simpa [hp] using h.tag p
  case refine_3 =>
    rw [obtained_serve, List.mem_append, List.mem_singleton] at ha
    rcases ha with ha | rfl
    · have hgave := h.gave a ha
      by_cases hp : a.place = place
      · subst hp
        simpa using hgave.serve r
      · simpa [hp] using hgave
    · simpa using Lexicon.serve_gave hl r
  case refine_4 =>
    rw [obtained_serve]
    refine List.pairwise_append.2 ⟨h.told, List.pairwise_singleton _ _, fun a ha b hb => ?_⟩
    rw [List.mem_singleton] at hb
    have hgave := h.gave a ha
    by_cases hp : a.place = place
    · subst hp hb
      simpa [Obtained.Together] using hgave.beq_serve_iff hl r
    · -- The tags tell symbols of different lexicons apart.
      have htag : a.symbol.lexicon ≠ b.symbol.lexicon := by
        rw [hb, hgave.tag, (Lexicon.serve_gave hl r).tag, Lexicon.tag_serve, h.tag, h.tag]
        exact fun heq => hp (Fin.ext heq)
      have hplace : a.place ≠ b.place := by rwa [hb]
      simp [Obtained.Together, Symbol.beq_iff, htag, hplace]
  case refine_5 =>
    have hnames := h.names p name
    by_cases hp : p = place
    · subst hp
      simp [Lexicon.mem_names_serve, hnames, or_and_right, exists_or, or_assoc]
    · have hp' : ¬ place = p := fun heq => hp heq.symm
      simp [hp, hp', hnames, or_and_right, exists_or]

end Shelf

/-! ### Scanning as a row of requests -/

namespace Scanner

/-- A piece that gives no token asks for nothing. -/
theorem lexicon_read_of_idle (l : Lexicon) (line : Nat) (piece : Piece)
    (h : ∀ t, (read l line piece).1 ≠ .token t) : (read l line piece).2 = l := by
  cases piece with
  | newline | blank | comment | stray | unclosed => rfl
  | mark | word | number | quoted => exact absurd rfl (h _)

/-- A token is what the scanner makes of the answer to one request. -/
theorem serve_of_read (l : Lexicon) (line : Nat) (piece : Piece) (t : Token)
    (h : (read l line piece).1 = .token t) :
    l.serve t.request = (t.lexeme, (read l line piece).2) := by
  have hshared : ∀ text : List Char, (l.intern (String.ofList text)).1.name = String.ofList text :=
    fun text => Lexicon.name_intern l _
  cases piece with
  | newline | blank | comment | stray | unclosed => cases h
  -- A mark and a word ask for the shared symbol of their text, constants for one of their own.
  | mark m =>
      obtain rfl := Reading.token.inj h
      have hrequest : (sharedToken l line (.mark m) (Piece.mark m).spelling).1.request
          = .shared (String.ofList (Piece.mark m).spelling) :=
        Token.request_eq_shared.2 ⟨rfl, hshared _⟩
      exact congrArg l.serve hrequest
  | word letters =>
      have hkind : (wordToken l line letters).1.kind.isConstant = false := by
        rw [kind_wordToken]
        dsimp only
        generalize Lexicon.keyword? _ _ = word
        cases word <;> rfl
      have ht : (wordToken l line letters).1 = t := Reading.token.inj h
      rw [← ht, Token.request_eq_shared.2 ⟨hkind, hshared letters⟩]
      rfl
  | number | quoted =>
      cases h
      rfl

end Scanner

namespace Scan

/-- To scan a source is to ask for the symbol of each token in turn. -/
theorem serve_tokens {n : Nat} (place : Fin n) (source : List Char) (line : Nat)
    (shelf : Shelf n) :
    let x := ofScanner ⟨source, line, shelf.lexica place⟩
    shelf.scan place x = (x.tokens.map Token.request).foldl (Shelf.serve · place) shelf := by
  induction source using Piece.source_induction generalizing line shelf with
  | nil =>
      rw [ofScanner_nil]
      have hrequest : Token.request ⟨.eof, ((shelf.lexica place).intern "").1, none, line⟩
          = .shared "" := Token.request_eq_shared.2 ⟨rfl, Lexicon.name_intern _ _⟩
      simp only [Shelf.scan, List.map_cons, List.map_nil, List.foldl_cons, List.foldl_nil, hrequest]
      rfl
  | cons c source ih =>
      rw [ofScanner_cons]
      dsimp only
      generalize line + Piece.newlines (Piece.first c source).1.spelling = ending
      have hidle := Scanner.lexicon_read_of_idle (shelf.lexica place) ending
        (Piece.first c source).1
      have hserve := Scanner.serve_of_read (shelf.lexica place) ending (Piece.first c source).1
      generalize Scanner.read _ _ _ = read at hidle hserve
      obtain ⟨reading, l⟩ := read
      cases reading with
      | skipped =>
          cases hidle nofun
          exact ih ending shelf
      | error e =>
          cases hidle nofun
          exact ih ending shelf
      | token t =>
          -- The rest is scanned on the shelf that the request for this token leaves behind.
          have hthis : (shelf.lexica place).serve t.request = (t.lexeme, l) := hserve t rfl
          have hlater := ih ending (shelf.serve place t.request)
          have hlexicon : (shelf.serve place t.request).lexica place = l := by
            simp [Shelf.serve, hthis]
          dsimp only at hlater
          rw [hlexicon] at hlater
          simp only [prepend, List.map_cons, List.foldl_cons]
          rw [← hlater]
          simp [Shelf.scan, Shelf.serve, hthis]

/-- Every token in a scan is written as its kind is, but for the end token, which is spelled by
nothing. -/
theorem ofScanner_written (source : List Char) (line : Nat) {l : Lexicon} (hl : l.Sound) :
    ∀ t ∈ (ofScanner ⟨source, line, l⟩).tokens, t.Written ∨ t.kind = .eof ∧ t.name = "" := by
  induction source using Piece.source_induction generalizing line l with
  | nil =>
      rw [ofScanner_nil]
      intro t ht
      cases List.mem_singleton.1 ht
      exact .inr ⟨rfl, Lexicon.name_intern l ""⟩
  -- The first piece gives one token at most, and the others are those of the rest.
  | cons c source ih =>
      rw [ofScanner_cons]
      generalize line + Piece.newlines (Piece.first c source).1.spelling = ending
      have hlater := ih ending (Scanner.read_sound hl ending (Piece.first c source).1)
      have hwritten : ∀ t, (Scanner.read l ending (Piece.first c source).1).1 = .token t →
          t.Written := fun t ht => (Scanner.written_of_read (Piece.first_cut c source) hl ht).1.2
      generalize Scanner.read _ _ _ = read at hlater hwritten
      obtain ⟨reading, l'⟩ := read
      cases reading with
      | skipped | error => exact hlater
      | token t =>
          rintro u (_ | ⟨_, hu⟩)
          · exact .inl (hwritten t rfl)
          · exact hlater u hu

/-- The end token closes every scan. -/
theorem exists_end (source : List Char) (line : Nat) (l : Lexicon) :
    ∃ t ∈ (ofScanner ⟨source, line, l⟩).tokens, t.kind = .eof ∧ t.name = "" := by
  induction source using Piece.source_induction generalizing line l with
  | nil =>
      rw [ofScanner_nil]
      exact ⟨_, List.mem_singleton.2 rfl, rfl, Lexicon.name_intern l ""⟩
  | cons c source ih =>
      rw [ofScanner_cons]
      generalize line + Piece.newlines (Piece.first c source).1.spelling = ending
      generalize Scanner.read _ _ _ = read
      obtain ⟨reading, l'⟩ := read
      obtain ⟨t, ht, hend⟩ := ih ending l'
      cases reading with
      | skipped | error => exact ⟨t, ht, hend⟩
      | token => exact ⟨t, List.mem_cons_of_mem _ ht, hend⟩

end Scan

/-- Constants are the tokens that start with a digit or a double quote. -/
theorem Kind.Spells.isConstant_eq {kind : Kind} {c : Char} {more : List Char}
    (h : kind.Spells (c :: more)) : kind.isConstant = (c.isDigit || c == '"') := by
  obtain ⟨d, more', htext, hstart⟩ := h.head
  obtain ⟨rfl, -⟩ := List.cons.inj htext
  -- Letters are neither digits nor quotes, so names and reserved words are no constants.
  have hword : Piece.isWordStart c = true → (c.isDigit || c == '"') = false := by
    intro hc
    have hquote : c ≠ '"' := by
      rintro rfl
      exact absurd hc (by decide)
    rw [Piece.isDigit_of_wordStart hc, Bool.false_or, beq_eq_false_iff_ne]
    exact hquote
  cases kind with
  | mark m =>
      rw [mayStart, Option.isSome_iff_exists] at hstart
      obtain ⟨sign, hsign⟩ := hstart
      unfold Mark.ofChar? at hsign
      split at hsign <;> cases hsign <;> rfl
  | identifier | keyword => exact (hword hstart).symm
  | number =>
      rw [mayStart] at hstart
      simp [isConstant, hstart]
  | string =>
      rw [mayStart] at hstart
      simp [isConstant, hstart]
  | eof => cases hstart

/-- What a constant is spelled by is the spelling of no other token. -/
theorem name_ne_of_isConstant {source : String} {l : Lexicon} (hl : l.Sound) {t u : Token}
    (ht : t ∈ (scan source l).tokens) (hu : u ∈ (scan source l).tokens)
    (htkind : t.kind.isConstant = true) (hukind : u.kind.isConstant = false) :
    t.name ≠ u.name := by
  intro hname
  rcases Scan.ofScanner_written source.toList 1 hl t ht with ht | ⟨ht, -⟩
  · obtain ⟨c, more, htext, -⟩ := ht.spelling.head
    have htc := (htext ▸ ht.spelling).isConstant_eq
    rcases Scan.ofScanner_written source.toList 1 hl u hu with hu | ⟨-, hu⟩
    · have huc := (htext ▸ hname ▸ hu.spelling).isConstant_eq
      rw [huc, ← htc, htkind] at hukind
      cases hukind
    · rw [hname, hu] at htext
      cases htext
  · rw [ht] at htkind
    cases htkind

/-! ### Names and symbols -/

namespace Shelf

variable {n : Nat}

/-- Requests in a row leave everything in order. -/
theorem InOrder.serveAll {shelf : Shelf n} (h : shelf.InOrder) (place : Fin n)
    (requests : List Lexicon.Request) : (requests.foldl (Shelf.serve · place) shelf).InOrder := by
  induction requests generalizing shelf with
  | nil => exact h
  | cons r requests ih => exact ih (h.serve place r)

/-- Every use leaves everything in order. -/
theorem InOrder.use {shelf : Shelf n} (h : shelf.InOrder) (u : Use n) :
    (shelf.use u).InOrder := by
  cases u with
  | symbol place name => exact h.serve place (.shared name)
  | keyword => exact h
  | detach place name => exact h.serve place (.own name)
  | scan place source =>
      have htokens : shelf.use (.scan place source) = _ :=
        Scan.serve_tokens place source.toList 1 shelf
      rw [htokens]
      exact h.serveAll place _

/-- Any uses leave everything in order. -/
theorem InOrder.after {shelf : Shelf n} (h : shelf.InOrder) (uses : List (Use n)) :
    (shelf.after uses).InOrder := by
  induction uses generalizing shelf with
  | nil => exact h
  | cons u uses ih => exact ih (h.use u)

/-- What was obtained stays obtained. -/
theorem obtained_after (shelf : Shelf n) (uses : List (Use n)) :
    shelf.obtained ⊆ (shelf.after uses).obtained := by
  induction uses generalizing shelf with
  | nil => exact List.Subset.refl _
  | cons u uses ih =>
      refine List.Subset.trans ?_ (ih (shelf.use u))
      cases u with
      | symbol | detach | scan => exact List.subset_append_left _ _
      | keyword => exact List.Subset.refl _

/-- Symbols obtained at different times are equal if they are the shared symbol of one name. -/
theorem InOrder.beq_iff {shelf : Shelf n} (h : shelf.InOrder) {j k : Nat} {a b : Obtained n}
    (ha : shelf.obtained[j]? = some a) (hb : shelf.obtained[k]? = some b) :
    (a.symbol == b.symbol) = true ↔ j = k ∨ a.Together b := by
  obtain ⟨hj, rfl⟩ := List.getElem?_eq_some_iff.1 ha
  obtain ⟨hk, rfl⟩ := List.getElem?_eq_some_iff.1 hb
  have htold := List.pairwise_iff_getElem.1 h.told
  rcases Nat.lt_trichotomy j k with hlt | rfl | hlt
  · rw [htold j k hj hk hlt, or_iff_right (Nat.ne_of_lt hlt)]
  · simp
  · rw [BEq.comm, htold k j hk hj hlt, or_iff_right (Nat.ne_of_gt hlt)]
    exact ⟨Obtained.Together.symm, Obtained.Together.symm⟩

/-- A lexicon takes a symbol for reserved if it gave it out as the shared one of the word. -/
theorem InOrder.keyword?_iff {shelf : Shelf n} (h : shelf.InOrder) {a : Obtained n}
    (ha : a ∈ shelf.obtained) (place : Fin n) (word : Keyword) :
    (shelf.lexica place).keyword? a.symbol = some word ↔
      a.place = place ∧ a.request = .shared word.text := by
  have hgave := h.gave a ha
  by_cases hp : a.place = place
  · subst hp
    simpa using hgave.keyword?_iff (h.sound a.place) word
  · have htag : a.symbol.lexicon ≠ (shelf.lexica place).tag := by
      rw [hgave.tag, h.tag, h.tag]
      exact fun heq => hp (Fin.ext heq)
    simp [Lexicon.keyword?_foreign (h.sound place) htag, hp]

/-- A scan makes known the names of its tokens, but for the spellings of constants. -/
theorem InOrder.mem_names_scan {shelf : Shelf n} (h : shelf.InOrder) (place : Fin n)
    (source : String) (name : String) :
    let x := Scriptlet.scan source (shelf.lexica place)
    name ∈ x.lexicon.names ↔ name ∈ (shelf.lexica place).names ∨
      ∃ t ∈ x.tokens, t.kind.isConstant = false ∧ t.name = name := by
  have hnames := (h.use (.scan place source)).names place name
  simp only [Shelf.use, Shelf.scan, Function.update_self] at hnames
  dsimp only
  rw [hnames, h.names place name, or_assoc]
  simp [or_and_right, exists_or, Token.request_eq_shared]

end Shelf

/-- **Symbols stand for names.** Any number of new lexicons are used in any order: names are asked
for, symbols of their own are made, sources are scanned, and symbols are looked up. Of the symbols
obtained, two are equal if and only if both are the shared symbol of one name in one lexicon, or
they are one and the same; and each spells the name it was asked for. Whatever the lexicons are used
for afterwards, a lexicon says that a symbol is reserved for a word if and only if it is its own
shared symbol for this word. The names that a lexicon knows are the reserved words and those it was
asked for. Scanning a source adds the names of its tokens other than constants, the empty name of
the end token among them, and no spelling of a constant. -/
theorem symbols_stand_for_names {n : Nat} (uses : List (Use n)) :
    let shelf := (Shelf.new n).after uses
    (∀ (j k : Nat) (a b : Obtained n),
      shelf.obtained[j]? = some a → shelf.obtained[k]? = some b →
      ((a.symbol == b.symbol) = true ↔ j = k ∨ a.Together b)) ∧
    (∀ a ∈ shelf.obtained, a.symbol.name = a.request.name) ∧
    (∀ later, ∀ a ∈ shelf.obtained, ∀ place word,
      ((shelf.after later).lexica place).keyword? a.symbol = some word ↔
        a.place = place ∧ a.request = .shared word.text) ∧
    (∀ place name, name ∈ (shelf.lexica place).names ↔ (∃ k : Keyword, k.text = name) ∨
      ∃ a ∈ shelf.obtained, a.place = place ∧ a.request = .shared name) ∧
    ∀ place source,
      let before := shelf.lexica place
      let x := scan source before
      (shelf.use (.scan place source)).lexica place = x.lexicon ∧
      (∀ name, name ∈ x.lexicon.names ↔ name ∈ before.names ∨
        ∃ t ∈ x.tokens, t.kind.isConstant = false ∧ t.name = name) ∧
      "" ∈ x.lexicon.names ∧
      ∀ t ∈ x.tokens, t.kind.isConstant = true →
        (t.name ∈ x.lexicon.names ↔ t.name ∈ before.names) := by
  have h := (Shelf.inOrder_new n).after uses
  refine ⟨fun j k a b ha hb => h.beq_iff ha hb, fun a ha => (h.gave a ha).name,
    fun later a ha place word => ?reserved, h.names, fun place source => ?scanned⟩
  -- What was obtained stays obtained, so what comes later adds nothing to be asked here.
  case reserved =>
    exact (h.after later).keyword?_iff (Shelf.obtained_after _ later ha) place word
  case scanned =>
    have hnames := h.mem_names_scan place source
    refine ⟨Function.update_self _ _ _, hnames, (hnames "").2 (.inr ?_), fun t ht hkind => ?_⟩
    · obtain ⟨t, ht, hkind, hname⟩ := Scan.exists_end source.toList 1 _
      exact ⟨t, ht, hkind ▸ rfl, hname⟩
    · refine (hnames t.name).trans (or_iff_left ?_)
      rintro ⟨u, hu, hukind, hname⟩
      exact name_ne_of_isConstant (h.sound place) ht hu hkind hukind hname.symm

end Scriptlet
