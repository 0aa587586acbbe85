import VectorGraphics.Optimizer.Pass
import VectorGraphics.Proofs.Conversion.Soundness
import VectorGraphics.Proofs.Graphic.Documents
import VectorGraphics.Proofs.Optimizer.Soundness

/-!
# Reading optimized documents back

A sound graphic is read back in its own format exactly if all its elements are legible
(`exists_read_write_iff`). Reading a document with names gives a sound graphic, and optimizing and
converting keep it sound, so that the same is true of what an optimized document holds
(`optimizeText_reads_back_iff`).
-/

namespace VectorGraphics.Optimizer

open Reading

/-! ## Documents -/

/-- The text of an element with the name of a root is read in the format of that name. -/
theorem yields_read_text {format : Format} {e : Markup.Element} (h : e.WellFormed)
    (hname : e.name = format.rootName) {g : Graphic} :
    Yields (read e.text) g ↔ Yields (format.graphicOf e.normalize) g := by
  have hdocument := yields_document.2 (Markup.parse_text h)
  have hroot : (if e.normalize.name = "vector" then VectorDrawable.graphicOf e.normalize
      else Svg.graphicOf e.normalize) = format.graphicOf e.normalize := by
    cases format with
    | svg =>
      have hne : e.name ≠ "vector" := by
        rw [hname]
        decide
      exact if_neg hne
    | vectorDrawable => exact if_pos hname
  rw [← hroot]
  constructor
  · intro hread
    obtain ⟨root, hroot, hread⟩ := yields_bind.1 hread
    rw [hroot.unique hdocument] at hread
    exact hread
  · exact fun hread => yields_bind.2 ⟨_, hdocument, hread⟩

/-- A sound graphic is read back exactly if all its elements are legible. -/
theorem exists_read_write_iff {g : Graphic} (h : g.Sound) (places : UInt8) :
    (∃ g', Yields (read (write g places)) g' ∧ g'.format = g.format)
      ↔ ∀ e ∈ g.elements, e.Legible g.format := by
  have hwell := wellFormed_elementOf places h.root h.children
  rw [← succeeds_graphicOf_elementOf places h.children]
  refine exists_congr fun g' => ?_
  rw [write, writeAs, yields_read_text hwell (name_elementOf places g)]
  exact and_iff_left_of_imp format_graphicOf

/-! ## Optimized documents -/

/-- What is written is what was produced from the graphic that was read. -/
theorem yields_optimizeText {o : Options} {s out : String} :
    Yields (optimizeText o s) out ↔
      ∃ g, Yields (read s) g ∧ write (produce o g).value o.places = out := by
  rw [optimizeText, yields_bind]
  refine exists_congr fun g => and_congr_right fun _ => ?_
  rw [yields_bind]
  constructor
  · rintro ⟨produced, hproduced, hout⟩
    rw [yields_lift.1 hproduced]
    exact yields_pure.1 hout
  · exact fun hout => ⟨_, yields_lift.2 rfl, yields_pure.2 hout⟩

/-- What is produced from a sound graphic is sound and has the format that is asked for. -/
theorem sound_produce {g : Graphic} (h : g.Sound) (o : Options) :
    (produce o g).value.Sound ∧ (produce o g).value.format = o.output.getD g.format := by
  obtain ⟨hsound, hformat⟩ := sound_optimize h o
  rw [← hformat]
  exact Conversion.sound_convert hsound _

/-- The text of an optimized document with names can be read, in the format that was asked for,
exactly if all elements that it was written from are legible. -/
theorem optimizeText_reads_back_iff {o : Options} {s out : String} {root : Markup.Element}
    {g : Graphic} (hparse : Markup.parse s = .ok root) (hnames : root.Named)
    (hread : Yields (read s) g) (hout : Yields (optimizeText o s) out) :
    (∃ g', Yields (read out) g' ∧ g'.format = o.output.getD g.format)
      ↔ ∀ e ∈ (produce o g).value.elements, e.Legible (o.output.getD g.format) := by
  obtain ⟨g', hread', rfl⟩ := yields_optimizeText.1 hout
  obtain rfl := hread'.unique hread
  obtain ⟨hsound, hformat⟩ := sound_produce (sound_read hparse hnames hread) o
  rw [← hformat]
  exact exists_read_write_iff hsound o.places

/-- A line under a title is read back. -/
theorem line_reads_back :
    ∃ g, Yields (read "<svg><title>Line</title><path d=\"M1,2h3\"/></svg>") g
      ∧ g.format = .svg := by
  obtain ⟨g, hread, hformat, hlegible⟩ :
      ∃ g, Yields (read "<svg><title>Line</title><path d=\"M1 2l3 0\"/></svg>") g
        ∧ g.format = .svg ∧ ∀ e ∈ (produce {} g).value.elements, e.Legible .svg := by
    decide +kernel
  have hparse : Markup.parse "<svg><title>Line</title><path d=\"M1 2l3 0\"/></svg>"
      = .ok { name := "svg", children :=
          [.element "title" [] [.text "Line"], .element "path" [("d", "M1 2l3 0")] []] } := by
    cbv
  have hout : Yields (optimizeText {} "<svg><title>Line</title><path d=\"M1 2l3 0\"/></svg>")
      "<svg><title>Line</title><path d=\"M1,2h3\"/></svg>" := by
    decide +kernel
  have hnames : Markup.Element.Named { name := "svg", children :=
      [.element "title" [] [.text "Line"], .element "path" [("d", "M1 2l3 0")] []] } :=
    ⟨⟨by decide, List.forall_mem_nil _⟩, ⟨⟨by decide, List.forall_mem_nil _⟩, trivial, trivial⟩,
      ⟨⟨by decide, by decide⟩, trivial⟩, trivial⟩
  have hback := (optimizeText_reads_back_iff hparse hnames hread hout).2
  rw [hformat] at hback
  exact hback hlegible

/-- A number that is too large becomes infinite, and infinity is no number of path data. -/
theorem overflow_is_not_read_back :
    Yields (optimizeText {} "<svg><path d=\"M1e39 0\"/></svg>")
        "<svg><path d=\"Minf,0\"/></svg>"
      ∧ ¬Succeeds (read "<svg><path d=\"Minf,0\"/></svg>") := by
  decide +kernel

/-- An element that is kept because of a group inside looks like a path when the group is gone. -/
example : Yields (optimizeText {} "<svg><path d=\"?\"><g/></path></svg>")
      "<svg><path d=\"?\"/></svg>"
    ∧ ¬Succeeds (read "<svg><path d=\"?\"/></svg>") := by
  decide +kernel

end VectorGraphics.Optimizer
