import VectorGraphics.Proofs.Optimizer.Alternatives
import VectorGraphics.Proofs.Path.Hulls

/-!
# Merging twice

What merging leaves it leaves as it is when it is run again (`mergeGraphic_mergeGraphic`).

The box of a run is united from the boxes of its members, each of which has been moved outwards by
half a stroke. When the path that the run has become is looked at again, its box is put around all
its points first and moved outwards afterwards. This is the same box (`Run.Settled`), as far as
comparing boxes can tell, because sums are ordered as what they are made of and because the move at
the front of each member still leads to where it led. And as the box of a run only grows, what did
not fit before it began to grow does not fit at the end either (`isChain_mergeFrom`).
-/

namespace VectorGraphics

/-! ## Alike boxes -/

namespace Path

/-- The path begins with a move to a point with finite coordinates. -/
def OpensFinitely (cs : List Command) : Prop :=
  ∃ m p ps rest, cs = .draw .move m (p :: ps) :: rest
    ∧ p.x.isFinite = true ∧ p.y.isFinite = true

theorem OpensFinitely.beginsWithMove {cs : List Command} (h : OpensFinitely cs) :
    BeginsWithMove cs := by
  obtain ⟨m, p, ps, rest, rfl, -⟩ := h
  exact ⟨m, p, ps, rest, rfl⟩

theorem OpensFinitely.append {cs : List Command} (h : OpensFinitely cs) (ds : List Command) :
    OpensFinitely (cs ++ ds) := by
  obtain ⟨m, p, ps, rest, rfl, hp⟩ := h
  exact ⟨m, p, ps, rest ++ ds, rfl, hp⟩

namespace Bounds

/-- The corners have equal coordinates, or coordinates that are NaN in both boxes. -/
structure Alike (b c : Bounds) : Prop where
  low : b.low.Alike c.low
  high : b.high.Alike c.high

theorem Alike.refl (b : Bounds) : b.Alike b := ⟨.refl _, .refl _⟩

theorem Alike.overlaps_iff {b b' c c' : Bounds} (hb : b.Alike b') (hc : c.Alike c') :
    b.overlaps c = true ↔ b'.overlaps c' = true := by
  rw [Bounds.overlaps_iff, Bounds.overlaps_iff, hb.low.x.le_iff hc.high.x,
    hc.low.x.le_iff hb.high.x, hb.low.y.le_iff hc.high.y, hc.low.y.le_iff hb.high.y]

theorem overlaps_comm {b c : Bounds} : b.overlaps c = true ↔ c.overlaps b = true := by
  rw [overlaps_iff, overlaps_iff]
  tauto

/-- Boxes around finite points may be moved outwards before they are united. -/
theorem Alike.union_expand {b c r : Bounds} {p q : Point} {m : Single} (hb : b.Contains p)
    (hp : p.x.isFinite = true ∧ p.y.isFinite = true) (hc : c.Contains q)
    (hq : q.x.isFinite = true ∧ q.y.isFinite = true) (hm : m.isNaN = false → 0 ≤ m)
    (h : (b.expand m).Alike r) : ((b.cover c).expand m).Alike (r.union (c.expand m)) where
  low :=
    ⟨Single.min_sub_alike hb.low_x hp.1 hc.low_x hc.x_high hq.1 hm h.low.x,
      Single.min_sub_alike hb.low_y hp.2 hc.low_y hc.y_high hq.2 hm h.low.y⟩
  high :=
    ⟨Single.max_add_alike hb.x_high hp.1 hc.low_x hc.x_high hq.1 hm h.high.x,
      Single.max_add_alike hb.y_high hp.2 hc.low_y hc.y_high hq.2 hm h.high.y⟩

/-- The box of a path that begins with a move to a finite point contains a finite point. -/
theorem exists_contains {cs : List Command} {b : Bounds} (hcs : OpensFinitely cs)
    (h : ofPath? cs = some b) :
    ∃ p, b.Contains p ∧ p.x.isFinite = true ∧ p.y.isFinite = true := by
  obtain ⟨m, p, ps, rest, rfl, hx, hy⟩ := hcs
  have hzero {x : Single} (hx : x.isFinite = true) : (x + 0).isFinite = true := by
    have hx := Single.is_value hx
    have havailable : Rounding.Available .binary32 (x.value + 0) :=
      (add_zero x.value).symm ▸ hx.available
    exact (hx.add Single.is_zero havailable).isFinite
  have hfinite : (Kind.move.absolute m .origin p).x.isFinite = true
      ∧ (Kind.move.absolute m .origin p).y.isFinite = true := by
    cases m with
    | absolute => exact ⟨hx, hy⟩
    | relative => exact ⟨hzero hx, hzero hy⟩
  rw [ofPath?_eq, outline, outlineFrom, Command.inMode_absolute, Kind.absolutes_cons] at h
  simp only [Command.segments, List.cons_append, List.flatMap_cons, Segment.hull,
    List.nil_append] at h
  exact ⟨_, contains_of_ofPoints? (Single.isNaN_of_isFinite hfinite.1)
    (Single.isNaN_of_isFinite hfinite.2) h, hfinite⟩

end Bounds

end Path

namespace Optimizer

open VectorGraphics.Path (Bounds OpensFinitely)

variable {format : Format} {scope : Scope}

/-! ## Runs whose box is that of their path -/

theorem strokeMargin_nonneg {foreign : Attributes}
    (h : (strokeMargin format scope foreign).isNaN = false) :
    0 ≤ strokeMargin format scope foreign := by
  unfold strokeMargin at h ⊢
  split_ifs at h ⊢
  · cases hwidth : number? (strokeWidth format scope foreign) with
    | none => exact (by decide : (0 : Single) ≤ Single.infinity)
    | some width =>
      rw [hwidth] at h
      exact Single.half_abs_nonneg h
  · exact Single.le_rfl rfl

/-- The path of a run begins with a move to a finite point, and its box is as good as the one of the
run. -/
structure Run.Settled (format : Format) (scope : Scope) (r : Run) : Prop where
  opens : OpensFinitely r.commands
  box : ∃ b, paintedBox? format scope r.foreign r.commands = some b ∧ b.Alike r.box

namespace Run

/-- The other run has the same attributes, and its box reaches at least as far. -/
structure Within (r s : Run) : Prop where
  foreign : s.foreign = r.foreign
  box : ∀ c, r.box.overlaps c = true → s.box.overlaps c = true

theorem Within.refl (r : Run) : r.Within r := ⟨rfl, fun _ => id⟩

theorem Within.trans {r s t : Run} (h : r.Within s) (h' : s.Within t) : r.Within t :=
  ⟨h'.foreign.trans h.foreign, fun c hc => h'.box c (h.box c hc)⟩

theorem Within.of_join? {r s joined : Run} (h : r.join? s = some joined) : r.Within joined := by
  obtain ⟨-, -, rfl⟩ := join?_eq_some h
  exact ⟨rfl, fun _ => Bounds.overlaps_union_of_left⟩

/-- A run that is continued has the box of its path still. -/
theorem Settled.join {r s joined : Run} (hr : r.Settled format scope)
    (hs : OpensFinitely s.commands)
    (hbox : paintedBox? format scope s.foreign s.commands = some s.box)
    (h : r.join? s = some joined) : joined.Settled format scope := by
  obtain ⟨hforeign, -, rfl⟩ := join?_eq_some h
  obtain ⟨b', hb', hlike⟩ := hr.box
  obtain ⟨b, hb, rfl⟩ := Option.map_eq_some_iff.1 hb'
  obtain ⟨c, hc, hcbox⟩ := Option.map_eq_some_iff.1 hbox
  obtain ⟨p, hbp, hp⟩ := Bounds.exists_contains hr.opens hb
  obtain ⟨q, hcq, hq⟩ := Bounds.exists_contains hs hc
  rw [hforeign] at hcbox
  refine ⟨hr.opens.append _, (b.cover c).expand (strokeMargin format scope r.foreign), ?_, ?_⟩
  · rw [paintedBox?, Bounds.ofPath?_append_appendable hs.beginsWithMove hb hc]
    rfl
  · rw [← hcbox]
    exact .union_expand hbp hp hcq hq strokeMargin_nonneg hlike

/-- When the path of a run is looked at again, it is the same run apart from its box, which is
alike. -/
theorem Settled.ofElement? {r s : Run} (hr : r.Settled format scope)
    (h : Run.ofElement? format scope r.element = some s) :
    s.foreign = r.foreign ∧ s.box.Alike r.box := by
  obtain ⟨b, hb, hlike⟩ := hr.box
  obtain ⟨helement, hbox⟩ := Run.ofElement?_eq_some h
  rw [element, Element.shape.injEq, Label.mk.injEq] at helement
  obtain ⟨-, ⟨-, hforeign⟩, hcommands⟩ := helement
  rw [← hforeign, ← hcommands, hb] at hbox
  exact ⟨hforeign.symm, Option.some.inj hbox ▸ hlike⟩

/-- Runs that do not join do not join when they have become paths, even if the second one has
grown. -/
theorem Settled.not_joins {r s t : Run} (hr : r.Settled format scope)
    (ht : t.Settled format scope) (hst : s.Within t) (h : r.join? s = none) :
    ¬Joins format scope r.element t.element := by
  rintro ⟨r', t', joined, hr', ht', hjoined⟩
  obtain ⟨hforeign, hrbox⟩ := hr.ofElement? hr'
  obtain ⟨hforeign', htbox⟩ := ht.ofElement? ht'
  obtain ⟨heq, hapart, -⟩ := join?_eq_some hjoined
  rw [hforeign, hforeign', hst.foreign] at heq
  have hoverlaps : r.box.overlaps s.box = true := by
    by_contra hne
    simp [join?, heq, hne] at h
  have hgrown : r.box.overlaps t.box = true :=
    Bounds.overlaps_comm.1 (hst.box _ (Bounds.overlaps_comm.1 hoverlaps))
  rw [(hrbox.overlaps_iff htbox).2 hgrown] at hapart
  cases hapart

end Run

/-! ## Siblings -/

theorem Run.Settled.of_ofElement? {e : Element} {r : Run} (hopens : OpensFinitely r.commands)
    (h : Run.ofElement? format scope e = some r) : r.Settled format scope :=
  ⟨hopens, r.box, (Run.ofElement?_eq_some h).2, .refl _⟩

/-- The first of some elements is the path that a run has grown into. -/
def BeginsWithRun (format : Format) (scope : Scope) (r : Run) (es : List Element) : Prop :=
  ∃ grown rest, es = grown.element :: rest ∧ r.Within grown ∧ grown.Settled format scope

/-- Merging leaves siblings of which no two neighbours join. The induction is on the siblings; a
run that is still growing will be the first of what is left. -/
theorem isChain_mergeFrom {current : Option Run} {es : List Element}
    (hcurrent : ∀ r, current = some r → r.Settled format scope)
    (hes : ∀ e ∈ es, ∀ r, Run.ofElement? format scope e = some r → OpensFinitely r.commands) :
    (mergeFrom format scope current es).IsChain (fun a b => ¬Joins format scope a b)
      ∧ ∀ r, current = some r → BeginsWithRun format scope r (mergeFrom format scope current es) :=
    by
  fun_induction mergeFrom format scope current es with
  | case1 => exact ⟨.nil, by rintro _ ⟨⟩⟩
  | case2 r =>
    refine ⟨.singleton _, ?_⟩
    rintro _ ⟨⟩
    exact ⟨r, [], rfl, .refl r, hcurrent r rfl⟩
  | case3 e es hnone ih =>
    obtain ⟨-, hes⟩ := List.forall_mem_cons.1 hes
    obtain ⟨hchain, -⟩ := ih (by rintro _ ⟨⟩) hes
    exact ⟨.cons hchain fun _ _ => not_joins_of_eq_none (.inl hnone), by rintro _ ⟨⟩⟩
  | case4 e es s hs ih =>
    obtain ⟨he, hes⟩ := List.forall_mem_cons.1 hes
    obtain ⟨hchain, -⟩ := ih (by rintro _ ⟨⟩; exact .of_ofElement? (he s hs) hs) hes
    exact ⟨hchain, by rintro _ ⟨⟩⟩
  | case5 e es r hnone ih =>
    obtain ⟨-, hes⟩ := List.forall_mem_cons.1 hes
    obtain ⟨hchain, -⟩ := ih (by rintro _ ⟨⟩) hes
    refine ⟨.cons_cons (not_joins_of_eq_none (.inr hnone))
      (.cons hchain fun _ _ => not_joins_of_eq_none (.inl hnone)), ?_⟩
    rintro _ ⟨⟩
    exact ⟨r, _, rfl, .refl r, hcurrent r rfl⟩
  | case6 e es r s hs joined hjoined ih =>
    obtain ⟨he, hes⟩ := List.forall_mem_cons.1 hes
    have hsettled := (hcurrent r rfl).join (he s hs) (Run.ofElement?_eq_some hs).2 hjoined
    obtain ⟨hchain, hbegins⟩ := ih (by rintro _ ⟨⟩; exact hsettled) hes
    refine ⟨hchain, ?_⟩
    rintro _ ⟨⟩
    obtain ⟨grown, rest, heq, hwithin, hgrown⟩ := hbegins joined rfl
    exact ⟨grown, rest, heq, (Run.Within.of_join? hjoined).trans hwithin, hgrown⟩
  | case7 e es r s hs hnone ih =>
    obtain ⟨he, hes⟩ := List.forall_mem_cons.1 hes
    have hr := hcurrent r rfl
    obtain ⟨hchain, hbegins⟩ := ih (by rintro _ ⟨⟩; exact .of_ofElement? (he s hs) hs) hes
    obtain ⟨grown, rest, heq, hwithin, hgrown⟩ := hbegins s rfl
    refine ⟨?_, ?_⟩
    · rw [heq] at hchain ⊢
      exact .cons_cons (hr.not_joins hgrown hwithin hnone) hchain
    · rintro _ ⟨⟩
      exact ⟨r, _, rfl, .refl r, hr⟩

theorem mergeSiblings_of_isChain {es : List Element}
    (h : es.IsChain fun a b => ¬Joins format scope a b) :
    mergeSiblings format scope es = pure es := by
  have hmerged : mergeFrom format scope none es = es := mergeFrom_of_isChain [] rfl h
  rw [mergeSiblings, hmerged]
  simp

/-- What merging leaves is what it was given or what a run has become. -/
theorem mem_mergeFrom {current : Option Run} {es : List Element} {e : Element}
    (h : e ∈ mergeFrom format scope current es) : e ∈ es ∨ ∃ r : Run, e = r.element := by
  fun_induction mergeFrom format scope current es with
  | case1 => cases h
  | case2 r => exact .inr ⟨r, List.mem_singleton.1 h⟩
  | case3 e' es hnone ih =>
    obtain rfl | h := List.mem_cons.1 h
    · exact .inl List.mem_cons_self
    · exact (ih h).imp_left (List.mem_cons_of_mem _)
  | case4 e' es s hs ih | case6 e' es r s hs joined hjoined ih =>
    exact (ih h).imp_left (List.mem_cons_of_mem _)
  | case5 e' es r hnone ih =>
    obtain rfl | h := List.mem_cons.1 h
    · exact .inr ⟨r, rfl⟩
    · obtain rfl | h := List.mem_cons.1 h
      · exact .inl List.mem_cons_self
      · exact (ih h).imp_left (List.mem_cons_of_mem _)
  | case7 e' es r s hs hnone ih =>
    obtain rfl | h := List.mem_cons.1 h
    · exact .inr ⟨r, rfl⟩
    · exact (ih h).imp_left (List.mem_cons_of_mem _)

/-! ## The tree -/

/-- Painted paths are empty or begin with a move to a finite point. -/
def opensFinitely : ElementProperty where
  shape := fun use _ cs => use = .painted → cs = [] ∨ OpensFinitely cs
  container := fun _ _ => True

theorem opensFinitely_of_ofElement? {e : Element} {r : Run} (he : opensFinitely.Holds e)
    (h : Run.ofElement? format scope e = some r) : OpensFinitely r.commands := by
  obtain ⟨rfl, hbox⟩ := Run.ofElement?_eq_some h
  refine (he rfl).resolve_left fun hnil => ?_
  rw [hnil] at hbox
  cases hbox

/-- Merging siblings that have been merged inside leaves nothing to merge. -/
theorem mergeSiblings_mergeFrom {es : List Element} (h : opensFinitely.HoldsAll es) :
    mergeSiblings format scope (mergeFrom format scope none (es.map (mergeInside format scope)))
      = pure (mergeFrom format scope none (es.map (mergeInside format scope))) := by
  refine mergeSiblings_of_isChain (isChain_mergeFrom (by rintro _ ⟨⟩) fun e he r hr => ?_).1
  obtain ⟨e, hmem, rfl⟩ := List.mem_map.1 he
  rw [ofElement?_mergeInside] at hr
  exact opensFinitely_of_ofElement? (ElementProperty.holdsAll_iff.1 h e hmem) hr

theorem mapSiblingsIn_of_forall {es : List Element}
    (h : ∀ e ∈ es, mapSiblings (fun _ => true) (mergeSiblings format) scope e = pure e) :
    mapSiblingsIn (fun _ => true) (mergeSiblings format) scope es = pure es := by
  induction es with
  | nil => rfl
  | cons e es ih =>
    obtain ⟨he, hes⟩ := List.forall_mem_cons.1 h
    rw [mapSiblingsIn, he, ih hes]
    rfl

/-- What is left of siblings that have nothing left to merge inside has nothing either. -/
theorem mapSiblingsIn_mergeFrom {es : List Element}
    (h : ∀ e ∈ es, mapSiblings (fun _ => true) (mergeSiblings format) scope e = pure e) :
    mapSiblingsIn (fun _ => true) (mergeSiblings format) scope (mergeFrom format scope none es)
      = pure (mergeFrom format scope none es) := by
  refine mapSiblingsIn_of_forall fun e he => ?_
  obtain hmem | ⟨r, rfl⟩ := mem_mergeFrom he
  · exact h e hmem
  · rfl

mutual

theorem mapSiblings_mergeInside : ∀ {scope : Scope} {e : Element}, opensFinitely.Holds e →
    mapSiblings (fun _ => true) (mergeSiblings format) scope (mergeInside format scope e)
      = pure (mergeInside format scope e)
  | _, .shape .., _ => rfl
  | _, .text _, _ => rfl
  | scope, .container role label children, h => by
    rw [mergeInside_container, mapSiblings, if_pos rfl]
    dsimp only
    rw [mapSiblingsIn_mergeFrom (forall_mapSiblings_mergeInside h.2), pure_bind,
      mergeSiblings_mergeFrom h.2, pure_bind]

theorem forall_mapSiblings_mergeInside : ∀ {scope : Scope} {es : List Element},
    opensFinitely.HoldsAll es → ∀ e ∈ es.map (mergeInside format scope),
      mapSiblings (fun _ => true) (mergeSiblings format) scope e = pure e
  | _, [], _ => nofun
  | _, _ :: _, h => List.forall_mem_cons.2
      ⟨mapSiblings_mergeInside h.1, forall_mapSiblings_mergeInside h.2⟩

end

/-- **Merging twice merges no more than merging once.** In a graphic whose painted paths are empty
or begin with a move to a point with finite coordinates, merging what has been merged changes
nothing and tells of nothing, however wide the strokes are. -/
theorem mergeGraphic_mergeGraphic (g : Graphic)
    (hopens : ∀ label cs, .shape .painted label cs ∈ g.elements → cs = [] ∨ OpensFinitely cs) :
    mergeGraphic (mergeGraphic g).value = pure (mergeGraphic g).value := by
  have hall : opensFinitely.HoldsAll g.children := by
    refine ElementProperty.holdsAll_iff_descendants.2 fun e he => ?_
    cases e with
    | shape use label cs =>
      rintro rfl
      exact hopens label cs he
    | container | text => trivial
  obtain ⟨format, label, children⟩ := g
  rw [value_mergeGraphic, mergeGraphic, mapGraphicSiblings]
  dsimp only
  rw [mapSiblingsIn_mergeFrom (forall_mapSiblings_mergeInside hall), pure_bind,
    mergeSiblings_mergeFrom hall, pure_bind]

/-- Of three lines the first two are merged. The third one lies between them, so that it overlaps
neither but stays by itself, the second time as the first time. -/
theorem third_line_stays : ∃ g : Graphic,
    (mergeGraphic g).value.children
      = [plainPath ∅ [.draw .move .absolute [⟨1, 1⟩], .draw .line .relative [⟨2, 0⟩],
          .draw .move .absolute [⟨8, 8⟩], .draw .line .relative [⟨2, 0⟩]],
        plainPath ∅ [.draw .move .absolute [⟨5, 5⟩], .draw .line .relative [⟨1, 0⟩]]]
      ∧ mergeGraphic (mergeGraphic g).value = pure (mergeGraphic g).value := by
  refine ⟨⟨.svg, {},
      [plainPath ∅ [.draw .move .absolute [⟨1, 1⟩], .draw .line .relative [⟨2, 0⟩]],
        plainPath ∅ [.draw .move .relative [⟨8, 8⟩], .draw .line .relative [⟨2, 0⟩]],
        plainPath ∅ [.draw .move .absolute [⟨5, 5⟩], .draw .line .relative [⟨1, 0⟩]]]⟩, rfl,
    mergeGraphic_mergeGraphic _ fun label cs hmem => .inr ?_⟩
  simp only [Graphic.elements, Element.descendants.descendantsOfAll, Element.descendants,
    List.cons_append, List.nil_append, List.mem_cons, List.not_mem_nil, or_false,
    Element.shape.injEq] at hmem
  obtain ⟨-, -, rfl⟩ | ⟨-, -, rfl⟩ | ⟨-, -, rfl⟩ := hmem
  · exact ⟨_, _, _, _, rfl, rfl, rfl⟩
  · exact ⟨_, _, _, _, rfl, rfl, rfl⟩
  · exact ⟨_, _, _, _, rfl, rfl, rfl⟩

end Optimizer

end VectorGraphics
