import VectorGraphics.Proofs.Graphic.Declarations
import VectorGraphics.Proofs.Number.Texts
import VectorGraphics.Svg.Transform

/-!
# The grammar of transform lists

A transform list is written as calls one after the other, with any separators after each of them and
any blanks around their names (`Written`). A call has the name of a kind of map, with as many
arguments as that kind takes (`Denotes`), and its arguments are literals with separators before,
between and after them (`Listed`).

Reading a transform list inverts the relation and multiplies the matrices from left to right; no
other text can be read (`parseTransform?_eq_some_iff`).
-/

namespace VectorGraphics.Svg

/-- The characters between arguments and after calls: commas and ASCII blanks. -/
def isSeparator (c : Char) : Bool := c = ',' || Text.isAsciiBlank c

/-- The matrix that a name stands for with the given arguments. -/
inductive Denotes : String → List Single → Matrix → Prop
  /-- All six numbers. -/
  | matrix {a b c d e f : Single} : Denotes "matrix" [a, b, c, d, e, f] (.affine a b c d e f)
  /-- A shift along the x axis. -/
  | shiftX {x : Single} : Denotes "translate" [x] (.shift x 0)
  /-- A shift. -/
  | shift {x y : Single} : Denotes "translate" [x, y] (.shift x y)
  /-- One factor for both axes. -/
  | scaleBoth {x : Single} : Denotes "scale" [x] (.scaling x x)
  /-- A factor for each axis. -/
  | scale {x y : Single} : Denotes "scale" [x, y] (.scaling x y)
  /-- A rotation about the origin. -/
  | rotate {angle : Single} : Denotes "rotate" [angle] (.rotation angle)
  /-- A rotation about a point. -/
  | rotateAround {angle x y : Single} :
      Denotes "rotate" [angle, x, y] (.shift x y * .rotation angle * .shift (-x) (-y))
  /-- A y axis that leans. -/
  | skewX {angle : Single} : Denotes "skewX" [angle] (.skewX angle)
  /-- An x axis that leans. -/
  | skewY {angle : Single} : Denotes "skewY" [angle] (.skewY angle)

/-- A text that consists of literals for the given numbers and separators before, between and after
them. -/
inductive Listed : List Single → List Char → Prop
  /-- The end of the text. -/
  | stop : Listed [] []
  /-- A separator. -/
  | separator {xs : List Single} {c : Char} {cs : List Char} (hc : isSeparator c = true)
      (h : Listed xs cs) : Listed xs (c :: cs)
  /-- A literal, which ends at a separator or with the text. -/
  | number {x : Single} {xs : List Single} {literal rest : List Char}
      (hx : Single.ofLiteral? literal = some x)
      (hrest : ∀ c ∈ rest.head?, isSeparator c = true) (h : Listed xs rest) :
      Listed (x :: xs) (literal ++ rest)

/-- A text that consists of calls for the given matrices. -/
inductive Written : List Matrix → List Char → Prop
  /-- The end of the text. -/
  | stop : Written [] []
  /-- A call, with blanks around its name and separators after it. -/
  | call {name : String} {xs : List Single} {m : Matrix} {ms : List Matrix}
      {before after arguments gap rest : List Char} (hm : Denotes name xs m)
      (hbefore : ∀ c ∈ before, Text.isBlank c = true) (hafter : ∀ c ∈ after, Text.isBlank c = true)
      (harguments : Listed xs arguments) (hgap : ∀ c ∈ gap, isSeparator c = true)
      (h : Written ms rest) :
      Written (m :: ms)
        (before ++ name.toList ++ after ++ '(' :: (arguments ++ ')' :: (gap ++ rest)))

/-! ## Names -/

theorem step?_eq_some_iff {name : String} {xs : List Single} {m : Matrix} :
    step? name xs = some m ↔ Denotes name xs m := by
  constructor
  · intro h
    unfold step? at h
    split at h <;> cases h <;> constructor
  · rintro ⟨⟩ <;> rfl

/-- The names of calls are words. -/
theorem Denotes.isWord {name : String} {xs : List Single} {m : Matrix} (h : Denotes name xs m) :
    IsWord name.toList := by
  cases h <;> decide +kernel

/-- A text is what is left of it by trimming, with blanks around it. -/
theorem exists_trimList (cs : List Char) : ∃ before after : List Char,
    (∀ c ∈ before, Text.isBlank c = true) ∧ (∀ c ∈ after, Text.isBlank c = true)
      ∧ cs = before ++ Text.trimList cs ++ after := by
  set kept := cs.dropWhile Text.isBlank with hkept
  refine ⟨cs.takeWhile Text.isBlank, (kept.reverse.takeWhile Text.isBlank).reverse,
    fun c hc => List.mem_takeWhile_imp hc,
    fun c hc => List.mem_takeWhile_imp (List.mem_reverse.1 hc), ?_⟩
  rw [Text.trimList, ← hkept, Text.dropRightWhile, List.append_assoc, ← List.reverse_append,
    List.takeWhile_append_dropWhile, List.reverse_reverse, hkept, List.takeWhile_append_dropWhile]

/-- Trimming a word with blanks around it leaves the word. -/
theorem trimList_blanks {before word after : List Char} (hword : IsWord word)
    (hbefore : ∀ c ∈ before, Text.isBlank c = true) (hafter : ∀ c ∈ after, Text.isBlank c = true) :
    Text.trimList (before ++ word ++ after) = word := by
  obtain ⟨c, cs, rfl⟩ := List.exists_cons_of_ne_nil hword.ne_nil
  have hc : ¬Text.isBlank c = true := by
    rw [isBlank_of_isTextChar (hword.char c List.mem_cons_self)]
    exact Bool.false_ne_true
  have htrim := hword.trimList
  rw [Text.trimList, List.dropWhile_cons_of_neg hc, Text.dropRightWhile] at htrim
  rw [Text.trimList, List.append_assoc, List.dropWhile_append_of_pos hbefore, List.cons_append,
    List.dropWhile_cons_of_neg hc, ← List.cons_append, Text.dropRightWhile, List.reverse_append,
    List.dropWhile_append_of_pos fun d hd => hafter d (List.mem_reverse.1 hd), htrim]

/-! ## Arguments -/

theorem isSeparator_eq_true_iff {c : Char} : isSeparator c = true
    ↔ c = ',' ∨ c = ' ' ∨ c = '\t' ∨ c = '\n' ∨ c = '\x0c' ∨ c = '\r' := by
  simp only [isSeparator, Text.isAsciiBlank, Bool.or_eq_true, decide_eq_true_eq, or_assoc]

theorem isSeparator_of_isLiteralChar {c : Char} (h : isLiteralChar c = true) :
    isSeparator c = false := by
  rw [Bool.eq_false_iff]
  intro hs
  obtain rfl | rfl | rfl | rfl | rfl | rfl := isSeparator_eq_true_iff.1 hs <;>
    exact absurd h (by decide)

theorem listItems_eq (cs : List Char) :
    Text.listItems cs = (cs.splitOnP isSeparator).filter fun item => !item.isEmpty := by
  rw [Text.listItems, Text.splitOn_eq_splitOnP]
  rfl

theorem listItems_separator {c : Char} (hc : isSeparator c = true) (cs : List Char) :
    Text.listItems (c :: cs) = Text.listItems cs := by
  have hsplit := List.splitOnP_append_cons [] cs hc
  rw [List.nil_append] at hsplit
  rw [listItems_eq, listItems_eq, hsplit]
  rfl

/-- Characters other than separators, up to a separator or to the end, are one item. -/
theorem listItems_append {item rest : List Char} (hne : item ≠ [])
    (hitem : ∀ c ∈ item, isSeparator c = false) (hrest : ∀ c ∈ rest.head?, isSeparator c = true) :
    Text.listItems (item ++ rest) = item :: Text.listItems rest := by
  have hkept {items : List (List Char)} : (item :: items).filter (fun v => !v.isEmpty)
      = item :: items.filter fun v => !v.isEmpty :=
    List.filter_cons_of_pos (by rwa [Bool.not_eq_true', List.isEmpty_eq_false_iff])
  cases rest with
  | nil =>
    rw [List.append_nil, listItems_eq, List.splitOnP_eq_singleton hitem, hkept]
    rfl
  | cons c rest =>
    have hc := hrest c rfl
    rw [listItems_separator hc, listItems_eq, List.splitOnP_append_cons _ _ hc,
      List.splitOnP_eq_singleton hitem, List.singleton_append, hkept, listItems_eq]

/-- A text that begins with no separator begins with an item. -/
theorem exists_item {c : Char} (hc : ¬isSeparator c = true) (cs : List Char) :
    ∃ item rest : List Char, c :: cs = item ++ rest ∧ item ≠ []
      ∧ (∀ d ∈ item, isSeparator d = false) ∧ ∀ d ∈ rest.head?, isSeparator d = true := by
  refine ⟨(c :: cs).takeWhile fun d => !isSeparator d, (c :: cs).dropWhile fun d => !isSeparator d,
    List.takeWhile_append_dropWhile.symm, ?_, fun d hd => ?_, fun d hd => ?_⟩
  · rw [List.takeWhile_cons_of_pos (by rwa [Bool.not_eq_true', ← Bool.not_eq_true])]
    exact List.cons_ne_nil _ _
  · simpa using List.mem_takeWhile_imp hd
  · have hfirst := List.head?_dropWhile_not (fun d => !isSeparator d) (c :: cs)
    rw [Option.mem_def.1 hd] at hfirst
    simpa using hfirst

/-- Numbers are read from the texts that list them. -/
theorem numbers?_eq_some_iff {cs : List Char} {xs : List Single} :
    numbers? cs = some xs ↔ Listed xs cs := by
  constructor
  · intro h
    induction hlength : cs.length using Nat.strong_induction_on generalizing cs xs with
    | _ n ih =>
      subst hlength
      cases cs with
      | nil =>
        cases h
        exact .stop
      | cons c cs =>
        by_cases hc : isSeparator c = true
        · rw [numbers?, listItems_separator hc] at h
          exact .separator hc (ih _ (Nat.lt_succ_self _) h rfl)
        · -- The first item goes up to the first separator.
          obtain ⟨item, rest, happend, hne, hitem, hrest⟩ := exists_item hc cs
          rw [happend, numbers?, listItems_append hne hitem hrest, List.mapM_cons] at h
          obtain ⟨x, hx, h⟩ := Option.bind_eq_some_iff.1 h
          obtain ⟨ys, hys, h⟩ := Option.bind_eq_some_iff.1 h
          cases h
          have hlt : rest.length < (c :: cs).length := by
            have := List.length_pos_iff.2 hne
            rw [happend, List.length_append]
            omega
          rw [happend]
          exact .number hx hrest (ih _ hlt hys rfl)
  · intro h
    induction h with
    | stop => rfl
    | separator hc h ih => rwa [numbers?, listItems_separator hc]
    | @number x xs literal rest hx hrest h ih =>
      obtain ⟨hne, hliteral⟩ := Single.isLiteralChar_of_ofLiteral? hx
      rw [numbers?, listItems_append hne (fun c hc => isSeparator_of_isLiteralChar (hliteral c hc))
        hrest, List.mapM_cons, hx, ← numbers?, ih]
      rfl

/-- A text that lists numbers has no parenthesis in it. -/
theorem Listed.notMem {xs : List Single} {cs : List Char} (h : Listed xs cs) : ')' ∉ cs := by
  induction h with
  | stop => exact List.not_mem_nil
  | separator hc h ih =>
    refine fun hmem => (List.mem_cons.1 hmem).elim (fun heq => ?_) ih
    rw [← heq] at hc
    exact absurd hc (by decide)
  | number hx hrest h ih =>
    refine fun hmem => (List.mem_append.1 hmem).elim (fun hmem => ?_) ih
    exact absurd ((Single.isLiteralChar_of_ofLiteral? hx).2 _ hmem) (by decide)

/-! ## Calls -/

/-- A call is cut off at the first opening and the first closing parenthesis, in this order. -/
theorem takeCall?_eq_some_iff {cs name arguments rest : List Char} :
    takeCall? cs = some (name, arguments, rest) ↔ '(' ∉ name ∧ ')' ∉ name ∧ ')' ∉ arguments
      ∧ cs = name ++ '(' :: (arguments ++ ')' :: rest) := by
  rw [takeCall?, Option.bind_eq_some_iff]
  constructor
  · rintro ⟨⟨front, afterOpen⟩, hopen, h⟩
    dsimp only at h
    obtain ⟨hclosed, h⟩ := Option.ite_none_left_eq_some.1 h
    obtain ⟨⟨inside, back⟩, hclose, h⟩ := Option.map_eq_some_iff.1 h
    cases h
    obtain ⟨hname, rfl⟩ := Text.cutAt?_eq_some_iff.1 hopen
    obtain ⟨harguments, rfl⟩ := Text.cutAt?_eq_some_iff.1 hclose
    exact ⟨hname, hclosed, harguments, rfl⟩
  · rintro ⟨hname, hclosed, harguments, rfl⟩
    refine ⟨_, Text.cutAt?_eq_some_iff.2 ⟨hname, rfl⟩, ?_⟩
    dsimp only
    rw [if_neg hclosed, Text.cutAt?_eq_some_iff.2 ⟨harguments, rfl⟩]
    rfl

/-- The first character of a call, after the blanks before it, is no separator; so separators in
front of calls can be left out. -/
theorem Written.dropWhile {ms : List Matrix} {cs : List Char} (h : Written ms cs) :
    Written ms (cs.dropWhile isSeparator) := by
  cases h with
  | stop => exact .stop
  | @call name xs m ms before after arguments gap rest hm hbefore hafter harguments hgap h =>
    have hword := hm.isWord
    set tail := after ++ '(' :: (arguments ++ ')' :: (gap ++ rest)) with htail
    have hname : (name.toList ++ tail).dropWhile isSeparator = name.toList ++ tail := by
      obtain ⟨c, cs, hcons⟩ := List.exists_cons_of_ne_nil hword.ne_nil
      have hc : isSeparator c = false := isSeparator_of_isLiteralChar
        (isLiteralChar_of_isTextChar (hword.char c (hcons ▸ List.mem_cons_self)))
      rw [hcons, List.cons_append, List.dropWhile_cons_of_neg (by rw [hc]; exact nofun)]
    have hdrop : (before ++ (name.toList ++ tail)).dropWhile isSeparator
        = before.dropWhile isSeparator ++ (name.toList ++ tail) := by
      rw [List.dropWhile_append, hname]
      split
      · next hempty => rw [List.isEmpty_iff.1 hempty, List.nil_append]
      · rfl
    rw [List.append_assoc, List.append_assoc, ← htail, hdrop, ← List.append_assoc, htail,
      ← List.append_assoc]
    exact .call hm (fun c hc => hbefore c ((List.dropWhile_sublist _).subset hc)) hafter harguments
      hgap h

/-- A text of calls that is not empty begins with a call, and other calls follow after the
separators behind it. -/
theorem written_iff_of_ne_nil {ms : List Matrix} {cs : List Char} (hcs : cs ≠ []) :
    Written ms cs ↔ ∃ name arguments rest m more,
      takeCall? cs = some (name, arguments, rest)
        ∧ (numbers? arguments).bind (step? (.ofList (Text.trimList name))) = some m
        ∧ Written more (rest.dropWhile isSeparator) ∧ ms = m :: more := by
  constructor
  · rintro (_ | @⟨name, xs, m, more, before, after, arguments, gap, rest, hm, hbefore, hafter,
      harguments, hgap, h⟩)
    · exact absurd rfl hcs
    · have hspaced {c : Char} (hchar : isTextChar c = false) (hblank : Text.isBlank c = false) :
          c ∉ before ++ name.toList ++ after := by
        simp only [List.mem_append, not_or]
        refine ⟨⟨fun hc => ?_, fun hc => ?_⟩, fun hc => ?_⟩
        · rw [hbefore c hc] at hblank
          cases hblank
        · rw [hm.isWord.char c hc] at hchar
          cases hchar
        · rw [hafter c hc] at hblank
          cases hblank
      refine ⟨before ++ name.toList ++ after, arguments, gap ++ rest, m, more,
        takeCall?_eq_some_iff.2 ⟨hspaced (by decide) (by decide), hspaced (by decide) (by decide),
          harguments.notMem, rfl⟩, ?_, ?_, rfl⟩
      · rw [numbers?_eq_some_iff.2 harguments, trimList_blanks hm.isWord hbefore hafter,
          String.ofList_toList]
        exact step?_eq_some_iff.2 hm
      · rw [List.dropWhile_append_of_pos hgap]
        exact h.dropWhile
  · rintro ⟨name, arguments, rest, m, more, hcall, hm, h, rfl⟩
    obtain ⟨-, -, -, rfl⟩ := takeCall?_eq_some_iff.1 hcall
    obtain ⟨xs, hxs, hstep⟩ := Option.bind_eq_some_iff.1 hm
    obtain ⟨before, after, hbefore, hafter, hname⟩ := exists_trimList name
    have hgap : ∀ c ∈ rest.takeWhile isSeparator, isSeparator c = true :=
      fun c hc => List.mem_takeWhile_imp hc
    have hwritten := Written.call (step?_eq_some_iff.1 hstep) hbefore hafter
      (numbers?_eq_some_iff.1 hxs) hgap h
    rwa [String.toList_ofList, ← hname, List.takeWhile_append_dropWhile] at hwritten

/-- The loop multiplies the matrices of the calls to the right of the one it starts with. -/
theorem multiplyCalls?_eq_some_iff {start product : Matrix} {cs : List Char} :
    multiplyCalls? start cs = some product
      ↔ ∃ ms, Written ms cs ∧ product = ms.foldl (· * ·) start := by
  fun_induction multiplyCalls? start cs with
  | case1 start =>
    constructor
    · rintro ⟨⟩
      exact ⟨[], .stop, rfl⟩
    · rintro ⟨ms, h, rfl⟩
      generalize hcs : ([] : List Char) = cs at h
      cases h with
      | stop => rfl
      | call => simp at hcs
  | case2 start cs hcs hnone =>
    refine iff_of_false nofun ?_
    rintro ⟨ms, h, -⟩
    obtain ⟨name, arguments, rest, m, more, hcall, -⟩ := (written_iff_of_ne_nil hcs).1 h
    cases hnone.symm.trans hcall
  | case3 start cs hcs name arguments rest hcall hlt hnone =>
    refine iff_of_false nofun ?_
    rintro ⟨ms, h, -⟩
    obtain ⟨name', arguments', rest', m, more, hcall', hm, -⟩ := (written_iff_of_ne_nil hcs).1 h
    cases hcall.symm.trans hcall'
    cases hnone.symm.trans hm
  | case4 start cs hcs name arguments rest hcall hlt m hm ih =>
    rw [ih]
    constructor
    · rintro ⟨more, h, rfl⟩
      exact ⟨m :: more, (written_iff_of_ne_nil hcs).2 ⟨name, arguments, rest, m, more, hcall, hm, h,
        rfl⟩, rfl⟩
    · rintro ⟨ms, h, rfl⟩
      obtain ⟨name', arguments', rest', m', more, hcall', hm', hmore, rfl⟩ :=
        (written_iff_of_ne_nil hcs).1 h
      cases hcall.symm.trans hcall'
      cases hm.symm.trans hm'
      exact ⟨more, hmore, rfl⟩

/-- A text is read as a transform if and only if it consists of calls, apart from blanks at its
ends; the transform is the product of their matrices from left to right, and every other text is
refused. -/
theorem parseTransform?_eq_some_iff (s : String) :
    (∀ m, parseTransform? s = some m
      ↔ ∃ ms, Written ms (Text.trimList s.toList) ∧ m = ms.foldl (· * ·) .identity)
    ∧ (parseTransform? s = none ↔ ∀ ms, ¬Written ms (Text.trimList s.toList)) := by
  refine ⟨fun m => multiplyCalls?_eq_some_iff, ?_⟩
  rw [Option.eq_none_iff_forall_ne_some]
  constructor
  · exact fun h ms hms => h _ (multiplyCalls?_eq_some_iff.2 ⟨ms, hms, rfl⟩)
  · intro h m hm
    obtain ⟨ms, hms, -⟩ := multiplyCalls?_eq_some_iff.1 hm
    exact h ms hms

end VectorGraphics.Svg
