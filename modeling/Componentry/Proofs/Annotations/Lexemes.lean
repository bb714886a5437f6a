import Componentry.Proofs.Annotations.Markers

/-!
# Scripts by their pieces

What the scan for annotations makes of a script that is put together from pieces: code, literals,
comments and annotations. Each piece is passed over as a whole, whatever stands inside it, so that
only the annotations among the pieces are found, and all of them.
-/

namespace Componentry.Annotations

open Text Script List

/-! ### Quoted texts -/

variable {c q : Char} {args body name rest : List Char} {n : Nat}

theorem quotedLength_cons (hc : c ≠ '\\') (s : List Char) :
    quotedLength q (c :: s) = if c == q then some 1 else (quotedLength q s).map (· + 1) := by
  rw [quotedLength]
  · exact fun h => absurd h hc
  · exact fun _ _ h => absurd h hc

theorem QuotedBody.quotedLength (hq : isQuote q = true) (h : QuotedBody q body) (rest : List Char) :
    quotedLength q (body ++ q :: rest) = some (body.length + 1) := by
  induction h with
  | nil =>
    rw [nil_append, quotedLength_cons (ne_of_isQuote hq rfl), if_pos (beq_self_eq_true q)]
    rfl
  | plain hc hslash h ih =>
    rw [cons_append, quotedLength_cons hslash, if_neg (by simpa using hc), ih]
    rfl
  | escape c h ih =>
    rw [cons_append, cons_append, Annotations.quotedLength, ih]
    rfl

/-! ### Comments -/

theorem exists_lineBody (s : List Char) :
    ∃ rest, s = s.takeWhile (· != '\n') ++ rest ∧ '\n' ∉ s.takeWhile (· != '\n') ∧
      ∀ c ∈ rest.head?, c = '\n' := by
  refine ⟨s.dropWhile (· != '\n'), (takeWhile_append_dropWhile ..).symm,
    fun h => by simpa using mem_takeWhile_imp h, fun c hc => ?_⟩
  have := head?_dropWhile_not (· != '\n') s
  rw [hc] at this
  simpa using this

/-- A comment ends with the first closing mark after its opening. -/
theorem blockLength_append (h : ¬"*/".toList <:+: body) (rest : List Char) :
    blockLength (body ++ '*' :: '/' :: rest) = body.length + 2 := by
  induction body with
  | nil => rfl
  | cons c body ih =>
    rw [cons_append, blockLength, ih fun hbody => h (infix_cons hbody)]
    · rfl
    · rintro r rfl hr
      cases body with
      | nil => cases hr
      | cons d body =>
        obtain rfl := (cons.inj hr).1
        exact h ⟨[], body, rfl⟩

/-- What is taken for a comment ends with its first closing mark, or is all that remains. -/
theorem exists_blockBody (s : List Char) :
    (∃ body rest, s = body ++ '*' :: '/' :: rest ∧ ¬"*/".toList <:+: body) ∨
      blockLength s = s.length := by
  fun_induction blockLength s with
  | case1 => exact .inr rfl
  | case2 rest => exact .inl ⟨[], rest, rfl, by decide⟩
  | case3 c cs hc ih =>
    rcases ih with ⟨body, rest, rfl, hbody⟩ | hall
    · refine .inl ⟨c :: body, rest, rfl, fun hinfix => ?_⟩
      rcases infix_cons_iff.mp hinfix with ⟨r, hr⟩ | hinfix
      · cases hr
        exact hc _ rfl rfl
      · exact hbody hinfix
    · exact .inr (congrArg (· + 1) hall)

/-! ### Arguments -/

/-- Arguments whose parentheses are balanced outside quoted parts. -/
inductive Balanced : List Char → Prop
  | nil : Balanced []
  | plain {c : Char} {s : List Char} :
    isQuote c = false → c ≠ '(' → c ≠ ')' → Balanced s → Balanced (c :: s)
  | quoted {q : Char} {body s : List Char} :
    isQuote q = true → QuotedBody q body → Balanced s → Balanced (q :: (body ++ q :: s))
  | nested {a s : List Char} : Balanced a → Balanced s → Balanced ('(' :: (a ++ ')' :: s))

theorem Balanced.closingParen {a : List Char} (h : Balanced a) (fuel : Nat) {depth : Nat}
    (rest : List Char) (hdepth : 0 < depth) (hfuel : (a ++ rest).length < fuel) :
    ∃ left, rest.length < left ∧ closingParen fuel depth (a ++ rest) =
      (closingParen left depth rest).map (· + a.length) := by
  induction h generalizing fuel depth rest with
  | nil => exact ⟨fuel, hfuel, by simp⟩
  | @plain c s hq hopen hclose h ih =>
    obtain _ | fuel := fuel
    · omega
    obtain ⟨left, hleft, heq⟩ := ih fuel rest hdepth (by simpa using hfuel)
    refine ⟨left, hleft, ?_⟩
    rw [cons_append, Annotations.closingParen, if_neg (by simpa using hq),
      if_neg (by simpa using hopen), if_neg (by simpa using hclose), heq, Option.map_map]
    rfl
  | @quoted q body s hq hbody h ih =>
    obtain _ | fuel := fuel
    · omega
    simp only [cons_append, append_assoc, length_cons, length_append] at hfuel ⊢
    obtain ⟨left, hleft, heq⟩ := ih fuel rest hdepth (by simp; omega)
    refine ⟨left, hleft, ?_⟩
    have hdrop : (body ++ q :: (s ++ rest)).drop (body.length + 1) = s ++ rest := by
      simp
    rw [Annotations.closingParen, if_pos hq, hbody.quotedLength hq]
    simp only [Option.bind_eq_bind, Option.bind_some, hdrop, heq, Option.map_map]
    congr 1
    funext n
    simp only [Function.comp_apply]
    omega
  | @nested a s ha hs iha ihs =>
    obtain _ | fuel := fuel
    · omega
    simp only [cons_append, append_assoc, length_cons, length_append] at hfuel ⊢
    obtain ⟨inner, hinner, heqa⟩ := iha fuel (')' :: (s ++ rest)) (Nat.succ_pos depth) (by simp; omega)
    obtain _ | inner := inner
    · omega
    obtain ⟨left, hleft, heqs⟩ := ihs inner rest hdepth (by simpa using hinner)
    refine ⟨left, hleft, ?_⟩
    have hopen : Annotations.closingParen (fuel + 1) depth ('(' :: (a ++ ')' :: (s ++ rest))) =
        (Annotations.closingParen fuel (depth + 1) (a ++ ')' :: (s ++ rest))).map (· + 1) := rfl
    have hclose : Annotations.closingParen (inner + 1) (depth + 1) (')' :: (s ++ rest)) =
        (Annotations.closingParen inner depth (s ++ rest)).map (· + 1) :=
      if_neg (by omega : ¬depth + 1 ≤ 1)
    rw [hopen, heqa, hclose, heqs]
    simp only [Option.map_map]
    congr 1
    funext n
    simp only [Function.comp_apply]
    omega

/-! ### Annotations -/

theorem IsName.annotationAt_bare (h : IsName name)
    (hrest : ∀ c ∈ rest.head?, isNameChar c = false ∧ c ≠ '(') :
    annotationAt (name ++ rest) = some (name, [], name.length) := by
  have hname := takeWhile_append_stop h.chars fun c hc => (hrest c hc).1
  obtain ⟨c, hc, hstart⟩ := h.starts
  obtain ⟨cs, rfl⟩ := head?_eq_some_iff.mp hc
  have hparen : (rest.head? == some '(') = false := by
    simpa using fun hp => (hrest '(' hp).2 rfl
  simp only [annotationAt, hname, hstart, drop_left, hparen]
  rfl

/-- A name with arguments in parentheses is an annotation, whatever follows. -/
theorem IsName.annotationAt_call (h : IsName name) (hargs : Balanced args) (rest : List Char) :
    annotationAt (name ++ '(' :: (args ++ ')' :: rest)) =
      some (name, args, name.length + args.length + 2) := by
  have hname : (name ++ '(' :: (args ++ ')' :: rest)).takeWhile isNameChar = name := by
    refine takeWhile_append_stop h.chars fun c hc => ?_
    cases hc
    decide
  obtain ⟨c, hc, hstart⟩ := h.starts
  obtain ⟨cs, rfl⟩ := head?_eq_some_iff.mp hc
  have hclose : closingParen (('(' :: (args ++ ')' :: rest)).length + 1) 0
      ('(' :: (args ++ ')' :: rest)) = some (args.length + 1) := by
    obtain ⟨left, hleft, heq⟩ := hargs.closingParen _ (')' :: rest) (Nat.succ_pos 0)
      (Nat.lt_add_one _)
    obtain _ | left := left
    · omega
    have hopen : closingParen (('(' :: (args ++ ')' :: rest)).length + 1) 0
        ('(' :: (args ++ ')' :: rest)) =
          (closingParen ((args ++ ')' :: rest).length + 1) 1 (args ++ ')' :: rest)).map (· + 1) := rfl
    rw [hopen, heq]
    simp [closingParen, isQuote]
  simp only [annotationAt, hname, hstart, drop_left, hclose]
  simp [Nat.add_assoc]

/-! ### Steps of the scan -/

variable {before : Option Char} {fuel pos : Nat} {cs pre : List Char}

theorem scan_line (hbody : '\n' ∉ body) (hrest : ∀ c ∈ rest.head?, c = '\n') :
    scan (fuel + 1) before pos ('/' :: '/' :: (body ++ rest)) =
      scan fuel (some '/') (pos + 2 + body.length) rest := by
  have htake : (body ++ rest).takeWhile (· != '\n') = body := by
    refine takeWhile_append_stop (fun c hc => ?_) fun c hc => by simp [hrest c hc]
    exact bne_iff_ne.mpr fun h => hbody (h ▸ hc)
  rw [scan, htake, drop_left]

theorem scan_block (hbody : ¬"*/".toList <:+: body) (rest : List Char) :
    scan (fuel + 1) before pos ('/' :: '*' :: (body ++ '*' :: '/' :: rest)) =
      scan fuel (some '/') (pos + 2 + (body.length + 2)) rest := by
  have hdrop : (body ++ '*' :: '/' :: rest).drop (body.length + 2) = rest := by
    simp
  rw [scan, blockLength_append hbody, hdrop]

theorem scan_quoted (hq : isQuote q = true) (hn : quotedLength q cs = some n) :
    scan (fuel + 1) before pos (q :: cs) = scan fuel (some q) (pos + 1 + n) (cs.drop n) := by
  have hslash : q ≠ '/' := ne_of_isQuote hq rfl
  rw [scan.eq_5 _ _ _ _ _ (fun _ h => absurd h hslash) fun _ h => absurd h hslash, if_pos hq, hn]

theorem scan_note (hb : before.all isBoundary = true)
    (hn : annotationAt cs = some (name, args, n)) : scan (fuel + 1) before pos ('@' :: cs) =
      { at_ := ⟨pos, pos + 1 + n⟩, name := String.ofList name, args := String.ofList args } ::
        scan fuel (some ')') (pos + 1 + n) (cs.drop n) := by
  rw [scan.eq_5 _ _ _ _ _ (fun _ h => absurd h (by decide)) fun _ h => absurd h (by decide),
    if_neg (by decide), if_pos (by simpa using hb), hn]

theorem scan_plain (hq : isQuote c = false) (hslash : c = '/' → ∀ d ∈ cs.head?, d ≠ '/' ∧ d ≠ '*')
    (hat : c = '@' → before.all isBoundary = true → annotationAt cs = none) :
    scan (fuel + 1) before pos (c :: cs) = scan fuel (some c) (pos + 1) cs := by
  rw [scan.eq_5 _ _ _ _ _ ?_ ?_, if_neg (by simpa using hq)]
  · split
    next h =>
      obtain ⟨hc, hb⟩ := Bool.and_eq_true_iff.mp h
      rw [hat (eq_of_beq hc) hb]
    next => rfl
  · rintro r rfl rfl
    exact (hslash rfl '/' rfl).1 rfl
  · rintro r rfl rfl
    exact (hslash rfl '*' rfl).2 rfl

/-! ### Pieces -/

/-- A piece of a script. -/
inductive Piece where
  /-- Code without anything that could start another piece. -/
  | code (text : List Char) (plain : ∀ c ∈ text, isQuote c = false ∧ c ≠ '/' ∧ c ≠ '@')
  /-- A string or template literal. -/
  | literal (q : Char) (body : List Char) (quote : isQuote q = true) (closed : QuotedBody q body)
  | lineComment (body : List Char) (open_ : '\n' ∉ body)
  | blockComment (body : List Char) (open_ : ¬"*/".toList <:+: body)
  /-- An annotation without arguments. -/
  | bare (name : List Char) (named : IsName name)
  | call (name args : List Char) (named : IsName name) (balanced : Balanced args)

def Piece.text : Piece → List Char
  | .code text _ => text
  | .literal q body _ _ => q :: (body ++ [q])
  | .lineComment body _ => '/' :: '/' :: (body ++ ['\n'])
  | .blockComment body _ => '/' :: '*' :: (body ++ ['*', '/'])
  | .bare name _ => '@' :: name
  | .call name args _ _ => '@' :: (name ++ '(' :: (args ++ [')']))

/-- The name and the arguments of an annotation. -/
def Piece.note? : Piece → Option (List Char × List Char)
  | .bare name _ => some (name, [])
  | .call name args _ _ => some (name, args)
  | _ => none

def textOf (ps : List Piece) : List Char := ps.flatMap Piece.text

/-- An annotation starts the script or follows a boundary, and neither more of a name nor arguments
follow one without arguments. -/
def Piece.Fits (before after : List Char) : Piece → Prop
  | .bare _ _ => before.getLast?.all isBoundary = true ∧
      ∀ c ∈ after.head?, isNameChar c = false ∧ c ≠ '('
  | .call _ _ _ _ => before.getLast?.all isBoundary = true
  | _ => True

def Fitting (before : List Char) : List Piece → Prop
  | [] => True
  | p :: ps => p.Fits before (textOf ps) ∧ Fitting (before ++ p.text) ps

/-- The annotations among pieces that follow a text: name, arguments, and range in bytes. -/
def notesAfter (before : List Char) : List Piece → List (String × String × Span)
  | [] => []
  | p :: ps =>
    (p.note?.map fun (name, args) => (String.ofList name, String.ofList args,
      (⟨byteLength before, byteLength (before ++ p.text)⟩ : Span))).toList ++
      notesAfter (before ++ p.text) ps

/-! ### The scan goes piece by piece -/

theorem isBoundary_of_isNameChar (h : isNameChar c = true) : isBoundary c = false := by
  by_contra hc
  simp only [isBoundary, Bool.not_eq_false, Bool.or_eq_true, beq_iff_eq] at hc
  rcases hc with ((((((rfl | rfl) | rfl) | rfl) | rfl) | rfl) | rfl) | rfl <;>
    exact absurd h (by decide)

theorem scan_code {text : List Char} (h : ∀ c ∈ text, isQuote c = false ∧ c ≠ '/' ∧ c ≠ '@')
    (rest : List Char) : scan (text.length + fuel) before pos (text ++ rest) =
      scan fuel (text.getLast?.or before) (pos + text.length) rest := by
  induction text generalizing before pos with
  | nil => simp
  | cons c text ih =>
    obtain ⟨⟨hq, hslash, hat⟩, htext⟩ := forall_mem_cons.mp h
    rw [cons_append, length_cons, Nat.add_right_comm,
      scan_plain hq (fun hc => absurd hc hslash) (fun hc => absurd hc hat), ih htext,
      getLast?_cons, Nat.add_assoc, Nat.add_comm 1]
    cases text.getLast? <;> rfl

theorem Piece.scan_text (p : Piece) (pos : Nat) (hfits : p.Fits pre rest)
    (hb : before.all isBoundary = pre.getLast?.all isBoundary)
    (hfuel : (p.text ++ rest).length ≤ fuel) : ∃ left last, rest.length ≤ left ∧
      Option.all isBoundary last = (pre ++ p.text).getLast?.all isBoundary ∧
      scan fuel before pos (p.text ++ rest) =
        (p.note?.map fun (name, args) => (⟨⟨pos, pos + p.text.length⟩, String.ofList name,
          String.ofList args⟩ : Occurrence)).toList ++
          scan left last (pos + p.text.length) rest := by
  cases p with
  | code text plain =>
    simp only [Piece.text, length_append] at hfuel ⊢
    obtain ⟨left, rfl⟩ := Nat.exists_eq_add_of_le ((Nat.le_add_right ..).trans hfuel)
    refine ⟨left, text.getLast?.or before, by omega, ?_, scan_code plain rest⟩
    rw [getLast?_append]
    cases text.getLast? with
    | none => exact hb
    | some c => rfl
  | literal q body quote closed =>
    simp only [Piece.text, cons_append, append_assoc, length_cons, length_append] at hfuel ⊢
    obtain _ | fuel := fuel
    · omega
    refine ⟨fuel, some q, by omega, by simp [getLast?_cons], ?_⟩
    rw [nil_append, scan_quoted quote (closed.quotedLength quote rest)]
    simp [Piece.note?, Nat.add_assoc, Nat.add_comm 1]
  | lineComment body open_ =>
    simp only [Piece.text, cons_append, append_assoc, length_cons, length_append] at hfuel ⊢
    obtain ⟨fuel, rfl⟩ : ∃ k, fuel = k + 2 := Nat.exists_eq_add_of_le' (by omega)
    refine ⟨fuel, some '\n', by omega, by simp [getLast?_cons], ?_⟩
    rw [scan_line open_ (by simp), scan_plain (by decide) (by simp) (by simp)]
    simp [Piece.note?, Nat.add_assoc, Nat.add_comm 2]
  | blockComment body open_ =>
    simp only [Piece.text, cons_append, append_assoc, length_cons, length_append] at hfuel ⊢
    obtain _ | fuel := fuel
    · omega
    refine ⟨fuel, some '/', by omega, by simp [getLast?_cons], ?_⟩
    rw [scan_block open_]
    simp [Piece.note?, Nat.add_assoc, Nat.add_comm 2]
  | bare name named =>
    simp only [Piece.text, cons_append, length_cons, length_append] at hfuel ⊢
    obtain _ | fuel := fuel
    · omega
    refine ⟨fuel, some ')', by omega, ?_, ?_⟩
    · -- neither a parenthesis nor a character of a name is a boundary
      rw [getLast?_append, getLast?_cons]
      cases hlast : name.getLast? with
      | none => rfl
      | some c => exact (isBoundary_of_isNameChar (named.chars c (mem_of_getLast? hlast))).symm
    · rw [scan_note (hb.trans hfits.1) (named.annotationAt_bare hfits.2)]
      simp [Piece.note?, Nat.add_assoc, Nat.add_comm 1]
  | call name args named balanced =>
    simp only [Piece.text, cons_append, append_assoc, length_cons, length_append] at hfuel ⊢
    obtain _ | fuel := fuel
    · omega
    refine ⟨fuel, some ')', by omega, by simp [getLast?_cons], ?_⟩
    rw [nil_append, scan_note (hb.trans hfits) (named.annotationAt_call balanced rest)]
    simp [Piece.note?, Nat.add_assoc, Nat.add_comm 1]

theorem scan_textOf {ps : List Piece} (hplaced : Fitting pre ps)
    (hb : before.all isBoundary = pre.getLast?.all isBoundary) (hfuel : (textOf ps).length ≤ fuel) :
    (scan fuel before pre.length (textOf ps)).map
        (fun o => (o.name, o.args, byteSpan (pre ++ textOf ps) o.at_)) = notesAfter pre ps := by
  induction ps generalizing pre before fuel with
  | nil => cases fuel <;> rfl
  | cons p ps ih =>
    obtain ⟨hfits, hplaced⟩ := hplaced
    have htext : textOf (p :: ps) = p.text ++ textOf ps := rfl
    rw [htext] at hfuel ⊢
    obtain ⟨left, last, hleft, hlast, hscan⟩ := p.scan_text pre.length hfits hb hfuel
    have hrest := ih hplaced hlast hleft
    rw [length_append, append_assoc] at hrest
    rw [hscan, map_append]
    congr 1
    cases p.note? with
    | none => rfl
    | some note =>
      have hstop : (pre ++ (p.text ++ textOf ps)).take (pre.length + p.text.length) =
          pre ++ p.text := by
        rw [← append_assoc, ← length_append, take_left]
      simp [byteSpan, hstop]

/-- In a script that is made of pieces, the scan finds exactly the annotations among them, in order,
with their names, arguments and ranges; nothing inside literals and comments counts. -/
theorem scan_finds_annotations (ps : List Piece) (h : Fitting [] ps) :
    (occurrences (textOf ps)).map (fun o => (o.name, o.args, byteSpan (textOf ps) o.at_)) =
      notesAfter [] ps :=
  scan_textOf h rfl le_rfl

/-- At signs in a literal and in comments, then two annotations, of which one has a parenthesis, a
quote and a character of two bytes in its arguments. -/
def sampler : List Piece :=
  [.literal '"' "@a\\\" é".toList rfl (.plain (by decide) (by decide) (.plain (by decide) (by decide)
      (.escape _ (.plain (by decide) (by decide) (.plain (by decide) (by decide) .nil))))),
    .lineComment " @b".toList (by decide), .bare "c".toList ⟨all_eq_true.mp rfl, 'c', rfl, rfl⟩,
    .blockComment " @d".toList (by decide), .code "\x7b".toList (by simp [isQuote]),
    .call "e.f".toList "(é)')'".toList ⟨all_eq_true.mp rfl, 'e', rfl, rfl⟩
      (.nested (.plain (by decide) (by decide) (by decide) .nil)
        (.quoted (by decide) (.plain (by decide) (by decide) .nil) .nil)),
    .code "g()".toList (by simp [isQuote])]

theorem scan_finds_annotations_sampler : Fitting [] sampler ∧
    textOf sampler = "\"@a\\\" é\"// @b\n@c/* @d*/\x7b@e.f((é)')')g()".toList ∧
    (occurrences (textOf sampler)).map
        (fun o => (o.name, o.args, byteSpan (textOf sampler) o.at_)) =
      [("c", "", ⟨15, 17⟩), ("e.f", "(é)')'", ⟨25, 38⟩)] := by
  have h : Fitting [] sampler := by
    refine ⟨trivial, trivial, ⟨rfl, fun c hc => ?_⟩, trivial, trivial, rfl, trivial, trivial⟩
    cases hc
    decide
  refine ⟨h, rfl, ?_⟩
  rw [scan_finds_annotations sampler h]
  rfl

end Componentry.Annotations
