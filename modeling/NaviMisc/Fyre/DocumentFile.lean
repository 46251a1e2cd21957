import NaviMisc.Fyre.Document

/-!
What is loaded of a document that was saved, and what a load leaves behind that fails.
-/

namespace NaviMisc.Fyre.Files

open Lib Lib.Xml

def Plugin.created : Plugin → Plugin
  | .Input _ => .Input 0
  | p => p

def Element.loaded (e : Element) : Element := { e with comment := some (e.comment.getD []) }

def CanvasElement.loaded (ce : CanvasElement) : CanvasElement :=
  { ce with element := ce.element.loaded }

section Nodes

abbrev Attributes := List (List Char × List Char)

def sectionNode (e : List Char × Attributes) : XmlNode := ⟨.Element, some e.1, 2, e.2⟩

def Element.leaf (e : Element) : List Char × Attributes :=
  (e.plugin.XmlName, [("id".toList, e.id.ToString), ("comment".toList, e.comment.getD [])] ++
    match e.plugin with
    | .Input type => [("type".toList, Int32.ToString type)]
    | _ => [])

def PadConnection.leaf (pc : PadConnection) : List Char × Attributes :=
  ("connection".toList, [("from".toList, Format pc.source_element pc.source_pad),
    ("to".toList, Format pc.sink_element pc.sink_pad)])

def CanvasElement.leaf (ce : CanvasElement) : List Char × Attributes :=
  ("element".toList, [("id".toList, ce.element.id.ToString), ("x".toList, Int32.ToString ce.X),
    ("y".toList, Int32.ToString ce.Y)])

theorem Element.write_eq (e : Element) : e.Write = Xml.leaf e.leaf := by
  obtain ⟨plugin, id, comment⟩ := e
  cases plugin <;> simp [Write, leaf, Xml.leaf, Plugin.Serialize]

theorem CanvasElement.write_eq (ce : CanvasElement) : ce.Write = Xml.leaf ce.leaf := rfl

end Nodes

section Read

theorem Plugin.xmlName_created (p : Plugin) : p.created.XmlName = p.XmlName := by
  cases p <;> rfl

theorem Plugin.created_mem (p : Plugin) : p.created ∈ registered := by
  cases p <;> simp [registered, created]

theorem Plugin.xmlName_ne_connection (p : Plugin) : p.XmlName ≠ "connection".toList := by
  have h : ∀ q ∈ registered, q.XmlName ≠ "connection".toList := by
    decide +kernel
  rw [← p.xmlName_created]
  exact h _ p.created_mem

theorem ElementFactory.create_eq (NewID : Guid) (p : Plugin) :
    CreateFromXml NewID (some p.XmlName) = some ⟨p.created, NewID, none⟩ := by
  have hfind : ∀ q ∈ Plugin.registered,
      Plugin.registered.find? (fun p => some p.XmlName = some q.XmlName) = some q := by
    decide +kernel
  rw [← p.xmlName_created, CreateFromXml, hfind _ p.created_mem]
  rfl

namespace Element

variable (e : Element)

theorem readAttribute_id (id : Guid) :
    e.readAttribute ("id".toList, id.ToString) = some { e with id := id } := by
  simp [readAttribute, Guid.new_toString]

theorem readAttribute_comment (value : List Char) :
    e.readAttribute ("comment".toList, value) = some { e with comment := some value } := rfl

theorem readAttribute_type (value : List Char) :
    e.readAttribute ("type".toList, value) = some e := rfl

theorem deSerialize_leaf : e.plugin.created.DeSerialize (sectionNode e.leaf) = some e.plugin := by
  obtain ⟨plugin, id, comment⟩ := e
  cases plugin
  case Input type =>
    have hvalue : ((Cursor.mk (sectionNode (leaf ⟨.Input type, id, comment⟩)) none).MoveToAttribute
        "type".toList).Value = Int32.ToString type := rfl
    simp only [Plugin.created, Plugin.DeSerialize, hvalue, Int32.parse_toString]
    rfl
  all_goals rfl

theorem read_leaf (NewID : Guid) :
    Element.Read ⟨e.plugin.created, NewID, none⟩ (sectionNode e.leaf) = some e.loaded := by
  rw [Read, deSerialize_leaf]
  obtain ⟨plugin, id, comment⟩ := e
  cases plugin <;>
    simp only [sectionNode, leaf, List.cons_append, List.nil_append, List.foldlM_cons,
      List.foldlM_nil, readAttribute_id, readAttribute_comment, readAttribute_type, loaded,
      Option.bind_eq_bind, Option.bind_some, Option.pure_def]

end Element

theorem PadConnection.ofValue_format (id : Guid) (pad : Int32) :
    ofValue (Format id pad) = some (id, pad) := by
  have hid : ':' ∉ id.ToString := fun h => (id.mem_toString h).1 rfl
  have hpad : ':' ∉ Int32.ToString pad := fun h => (Int32.mem_toString pad h).1 rfl
  rw [ofValue, Format, List.splitOn_append_cons_self_of_not_mem hid, List.splitOn_eq_singleton hpad]
  simp [Guid.new_toString, Int32.parse_toString]

theorem PadConnection.create_leaf (pc : PadConnection) :
    CreateFromXml (sectionNode pc.leaf) = some pc := by
  have hfrom : ((Cursor.mk (sectionNode pc.leaf) none).MoveToAttribute "from".toList).Value =
      Format pc.source_element pc.source_pad := rfl
  have hto : (((Cursor.mk (sectionNode pc.leaf) none).MoveToAttribute
      "from".toList).MoveToAttribute "to".toList).Value = Format pc.sink_element pc.sink_pad := rfl
  simp only [CreateFromXml, hfrom, hto, ofValue_format]
  rfl

theorem CanvasElement.create_leaf (ce : CanvasElement) (p : Pipeline) :
    CreateFromXml (sectionNode ce.leaf) p =
      (p.element_store.get ce.element.id.ToString).map fun e => ⟨e, ce.X, ce.Y⟩ := by
  let reader := (Cursor.mk (sectionNode ce.leaf) none).MoveToAttribute "id".toList
  have hid : reader.Value = ce.element.id.ToString := rfl
  have hx : (reader.MoveToAttribute "x".toList).Value = Int32.ToString ce.X := rfl
  have hy : ((reader.MoveToAttribute "x".toList).MoveToAttribute "y".toList).Value =
      Int32.ToString ce.Y := rfl
  unfold CreateFromXml
  change (do
    let x ← Int32.Parse (reader.MoveToAttribute "x".toList).Value
    let y ← Int32.Parse
      ((reader.MoveToAttribute "x".toList).MoveToAttribute "y".toList).Value
    let e ← p.element_store.get reader.Value
    return (⟨e, x, y⟩ : CanvasElement)) = _
  rw [hid, hx, hy, Int32.parse_toString, Int32.parse_toString]
  cases p.element_store.get ce.element.id.ToString <;> rfl

end Read

section Sections

variable {σ : Type} {add : σ → XmlNode → Option σ} {s s' : σ}

theorem readSection_append {nodes : List XmlNode} (h : nodes.foldlM add s = some s')
    (hnodes : ∀ node ∈ nodes, node.nodeType = .Element ∧ node.depth = 2)
    (rest : List (Option XmlNode)) :
    readSection add s (nodes.map some ++ rest) = readSection add s' rest := by
  induction nodes generalizing s with
  | nil =>
    cases h
    rfl
  | cons node nodes ih =>
    rw [List.foldlM_cons] at h
    obtain ⟨t, ht, h⟩ := Option.bind_eq_some_iff.mp h
    rw [List.map_cons, List.cons_append, readSection, if_pos (hnodes node List.mem_cons_self), ht]
    exact ih h fun node hmem => hnodes node (List.mem_cons_of_mem _ hmem)

theorem readSection_stop {node : XmlNode} (h : ¬(node.nodeType = .Element ∧ node.depth = 2))
    (rest : List (Option XmlNode)) : readSection add s (some node :: rest) = (s, some rest) :=
  if_neg h

def after (name : List Char) (leaves : List (List Char × Attributes)) (rest : List XmlNode) :
    List XmlNode :=
  if leaves = [] then rest
  else leaves.map sectionNode ++ ⟨.EndElement, some name, 1, []⟩ :: rest

theorem length_le_after (name : List Char) (leaves : List (List Char × Attributes))
    (rest : List XmlNode) : rest.length ≤ (after name leaves rest).length := by
  unfold after
  split_ifs
  · exact Nat.le_refl _
  · rw [List.length_append, List.length_cons]
    omega

theorem readSection_after {leaves : List (List Char × Attributes)}
    (h : (leaves.map sectionNode).foldlM add s = some s') (name : List Char) (next : XmlNode)
    (hnext : ¬(next.nodeType = .Element ∧ next.depth = 2)) (rest : List XmlNode) :
    readSection add s ((after name leaves (next :: rest)).map some) =
      (s', some ((if leaves = [] then rest else next :: rest).map some)) := by
  unfold after
  split_ifs with hleaves
  · subst hleaves
    cases h
    exact readSection_stop hnext _
  · rw [List.map_append, List.map_cons, readSection_append h]
    · exact readSection_stop (by simp) _
    · intro node hnode
      obtain ⟨e, -, rfl⟩ := List.mem_map.mp hnode
      exact ⟨rfl, rfl⟩

theorem readSection_rel {R : σ → σ → Prop} (refl : ∀ s, R s s)
    (trans : ∀ {s t u}, R s t → R t u → R s u)
    (hadd : ∀ {s node t}, add s node = some t → R s t) (s : σ) (file : List (Option XmlNode)) :
    R s (readSection add s file).1 := by
  induction file generalizing s with
  | nil => exact refl s
  | cons node file ih =>
    cases node with
    | none => exact refl s
    | some node =>
      unfold readSection
      split_ifs
      · cases ht : add s node with
        | none => exact refl s
        | some t => exact trans (hadd ht) (ih t)
      · exact refl s

theorem readSection_invariant {P : σ → Prop} (hadd : ∀ {s node t}, add s node = some t → P s → P t)
    (h : P s) (file : List (Option XmlNode)) : P (readSection add s file).1 :=
  readSection_rel (R := fun s t => P s → P t) (fun _ h => h) (fun h h' hs => h' (h hs)) hadd s
    file h

end Sections

section Added

variable (NewGuid : ℕ → Guid)

theorem Pipeline.read_connections (pcs : List PadConnection) (p : Pipeline) (k : ℕ) :
    (pcs.map fun pc => sectionNode pc.leaf).foldlM (read NewGuid) (p, k) =
      some ({ p with connections := p.connections ++ pcs }, k) := by
  induction pcs generalizing p with
  | nil => simp
  | cons pc pcs ih =>
    have hread : read NewGuid (p, k) (sectionNode pc.leaf) =
        some ({ p with connections := p.connections ++ [pc] }, k) := by
      have hname : (sectionNode pc.leaf).name = some "connection".toList := rfl
      rw [read, if_pos hname, PadConnection.create_leaf]
      rfl
    rw [List.map_cons, List.foldlM_cons, hread]
    simp [ih]

theorem Pipeline.read_element (p : Pipeline) (k : ℕ) {e : Element}
    (h : e.id.ToString ∉ p.element_store.entries.map Prod.fst) :
    ∃ store, read NewGuid (p, k) (sectionNode e.leaf) =
        some ({ p with element_store := store }, k + 1) ∧
      store.entries = p.element_store.entries ++ [(e.id.ToString, e.loaded)] := by
  obtain ⟨store, hadd, hentries⟩ := Hashtable.exists_add (a := e.loaded) h
  refine ⟨store, ?_, hentries⟩
  have hname : (sectionNode e.leaf).name = some e.plugin.XmlName := by
    simp only [sectionNode, Element.leaf]
  have hne : ¬some e.plugin.XmlName = some "connection".toList := by
    simpa only [Option.some.injEq] using e.plugin.xmlName_ne_connection
  have hadd' : p.element_store.Add e.loaded.id.ToString e.loaded = some store := hadd
  rw [read, hname, if_neg hne, ElementFactory.create_eq]
  simp only [Option.bind_eq_bind, Option.bind_some, Element.read_leaf, hadd', Option.pure_def]

theorem Pipeline.read_elements (es : List (List Char × Element)) (p : Pipeline) (k : ℕ)
    (hkey : ∀ entry ∈ es, entry.1 = entry.2.id.ToString)
    (hnodup : (p.element_store.entries.map Prod.fst ++ es.map Prod.fst).Nodup) :
    ∃ store, (es.map fun entry => sectionNode entry.2.leaf).foldlM (read NewGuid) (p, k) =
        some ({ p with element_store := store }, k + es.length) ∧
      store.entries = p.element_store.entries ++ es.map fun entry => (entry.1, entry.2.loaded) := by
  induction es generalizing p k with
  | nil => exact ⟨p.element_store, rfl, by simp⟩
  | cons entry es ih =>
    obtain ⟨key, e⟩ := entry
    obtain rfl : key = e.id.ToString := hkey (key, e) List.mem_cons_self
    have hnew : e.id.ToString ∉ p.element_store.entries.map Prod.fst := by
      intro h
      exact List.disjoint_of_nodup_append hnodup h List.mem_cons_self
    obtain ⟨store, hread, hentries⟩ := p.read_element NewGuid k hnew
    obtain ⟨store', hrest, hentries'⟩ := ih { p with element_store := store } (k + 1)
      (fun entry h => hkey entry (List.mem_cons_of_mem _ h)) (by simpa [hentries] using hnodup)
    refine ⟨store', ?_, by simp [hentries', hentries]⟩
    rw [List.map_cons, List.foldlM_cons, hread]
    simp only [Option.bind_eq_bind, Option.bind_some, hrest, List.length_cons]
    rw [Nat.add_right_comm, Nat.add_assoc]

theorem Layout.read_elements {p : Pipeline} (cs : List (List Char × CanvasElement)) (l : Layout)
    (hkey : ∀ entry ∈ cs, entry.1 = entry.2.element.id.ToString)
    (hplaced : ∀ entry ∈ cs, (entry.1, entry.2.element.loaded) ∈ p.element_store.entries)
    (hnodup : (l.elements.entries.map Prod.fst ++ cs.map Prod.fst).Nodup) :
    ∃ l' : Layout, (cs.map fun entry => sectionNode entry.2.leaf).foldlM (read p) l = some l' ∧
      l'.elements.entries =
        l.elements.entries ++ cs.map fun entry => (entry.1, entry.2.loaded) := by
  induction cs generalizing l with
  | nil => exact ⟨l, rfl, by simp⟩
  | cons entry cs ih =>
    obtain ⟨key, ce⟩ := entry
    obtain rfl : key = ce.element.id.ToString := hkey (key, ce) List.mem_cons_self
    have hnew : ce.element.id.ToString ∉ l.elements.entries.map Prod.fst := by
      intro h
      exact List.disjoint_of_nodup_append hnodup h List.mem_cons_self
    obtain ⟨elements, hadd, hentries⟩ := Hashtable.exists_add (a := ce.loaded) hnew
    have hread : read p l (sectionNode ce.leaf) = some ⟨elements⟩ := by
      have hget := Hashtable.get_eq_some (hplaced _ List.mem_cons_self)
      rw [read, CanvasElement.create_leaf, hget]
      change (l.elements.Add ce.element.id.ToString ce.loaded).bind _ = _
      rw [hadd]
      rfl
    obtain ⟨l', hrest, hentries'⟩ := ih ⟨elements⟩
      (fun entry h => hkey entry (List.mem_cons_of_mem _ h))
      (fun entry h => hplaced entry (List.mem_cons_of_mem _ h)) (by simpa [hentries] using hnodup)
    refine ⟨l', ?_, by simp [hentries', hentries]⟩
    rw [List.map_cons, List.foldlM_cons, hread]
    exact hrest

end Added

namespace Document

section Save

variable (d : Document) (filename : List Char) (es : List (List Char × Element))
  (cs : List (List Char × CanvasElement))

def pipelineLeaves : List (List Char × Attributes) :=
  es.map (fun entry => entry.2.leaf) ++ d.pipeline.connections.map PadConnection.leaf

def layoutLeaves : List (List Char × Attributes) := cs.map fun entry => entry.2.leaf

def lastNode : XmlNode := ⟨.EndElement, some "fyre-pipeline".toList, 0, []⟩

def layoutNode : XmlNode := ⟨.Element, some "layout".toList, 1, []⟩

theorem serialize_eq : d.pipeline.Serialize es = (d.pipelineLeaves es).flatMap leaf := by
  simp only [Pipeline.Serialize, pipelineLeaves, List.flatMap_append, List.flatMap_map,
    Element.write_eq]
  rfl

theorem layout_serialize_eq : Layout.Serialize cs = (layoutLeaves cs).flatMap leaf := by
  simp only [Layout.Serialize, layoutLeaves, List.flatMap_map, CanvasElement.write_eq]

theorem nodes_save : nodes (d.Save filename es cs).2 =
    ⟨.XmlDeclaration, none, 0, []⟩ :: ⟨.Element, some "fyre-pipeline".toList, 0, []⟩ ::
      ⟨.Element, some "pipeline".toList, 1, []⟩ :: after "pipeline".toList (d.pipelineLeaves es)
        (layoutNode :: after "layout".toList (layoutLeaves cs) [lastNode]) := by
  simp only [nodes, Save, serialize_eq, layout_serialize_eq, List.cons_append, List.nil_append,
    List.append_assoc, report, report_section]
  simp only [after, layoutNode, lastNode, closing, List.length_cons, List.length_nil,
    List.append_nil]
  rfl

end Save

variable (NewGuid : ℕ → Guid) (d : Document) (k fuel : ℕ)

theorem loadNodes_skip {node : XmlNode} (h : ¬(node.nodeType = .Element ∧ node.depth = 1))
    (rest : List (Option XmlNode)) :
    loadNodes NewGuid (fuel + 1) d k (some node :: rest) = loadNodes NewGuid fuel d k rest := by
  rw [loadNodes, if_neg h]

theorem loadNodes_pipeline {s : Pipeline × ℕ} {file rest : List (Option XmlNode)}
    (h : Pipeline.DeSerialize NewGuid (d.pipeline, k) file = (s, some rest)) :
    loadNodes NewGuid (fuel + 1) d k
        (some ⟨.Element, some "pipeline".toList, 1, []⟩ :: file) =
      loadNodes NewGuid fuel { d with pipeline := s.1 } s.2 rest := by
  rw [loadNodes, if_pos ⟨rfl, rfl⟩, if_pos rfl, h]

theorem loadNodes_layout {l : Layout} {file rest : List (Option XmlNode)}
    (h : Layout.DeSerialize d.pipeline d.layout file = (l, some rest)) :
    loadNodes NewGuid (fuel + 1) d k (some layoutNode :: file) =
      loadNodes NewGuid fuel { d with layout := l } k rest := by
  rw [layoutNode, loadNodes, if_pos ⟨rfl, rfl⟩, if_neg (by decide), if_pos rfl, h]

theorem loadNodes_last : loadNodes NewGuid (fuel + 2) d k [some lastNode] = (d, true) := by
  rw [loadNodes_skip]
  · rfl
  · decide

theorem loadNodes_sections {p : Pipeline} {l : Layout} {k' : ℕ}
    {leaves leaves' : List (List Char × Attributes)}
    (hp : (leaves.map sectionNode).foldlM (Pipeline.read NewGuid) (d.pipeline, k) = some (p, k'))
    (hl : (leaves'.map sectionNode).foldlM (Layout.read p) d.layout = some l)
    (hempty : leaves = [] → leaves' = []) (hfuel : 4 ≤ fuel) :
    loadNodes NewGuid fuel d k ((⟨.Element, some "pipeline".toList, 1, []⟩ ::
        after "pipeline".toList leaves
          (layoutNode :: after "layout".toList leaves' [lastNode])).map some) =
      ({ d with pipeline := p, layout := l }, true) := by
  obtain ⟨fuel, rfl⟩ := Nat.exists_eq_add_of_le' hfuel
  have hpipeline := readSection_after hp "pipeline".toList layoutNode (by decide)
    (after "layout".toList leaves' [lastNode])
  have hlayout := readSection_after hl "layout".toList lastNode (by decide) []
  rw [List.map_cons, loadNodes_pipeline NewGuid d k (fuel + 3) hpipeline]
  split_ifs with hleaves
  · obtain rfl := hempty hleaves
    cases hl
    exact loadNodes_last NewGuid _ _ _
  · rw [List.map_cons, loadNodes_layout NewGuid { d with pipeline := p } k' (fuel + 2) hlayout]
    split_ifs
    · rfl
    · exact loadNodes_last NewGuid _ _ _

def Empty (d : Document) : Prop :=
  d.pipeline.element_store.entries = [] ∧ d.pipeline.connections = [] ∧
    d.layout.elements.entries = []

section Saved

variable {d empty : Document} {es : List (List Char × Element)}
  {cs : List (List Char × CanvasElement)}

structure SameAs (d saved : Document) : Prop where
  elements : d.pipeline.element_store.entries.Perm
    (saved.pipeline.element_store.entries.map fun entry => (entry.1, entry.2.loaded))
  connections : d.pipeline.connections = saved.pipeline.connections
  layout : d.layout.elements.entries.Perm
    (saved.layout.elements.entries.map fun entry => (entry.1, entry.2.loaded))

theorem Sound.layout_key (h : d.Sound) {entry : List Char × CanvasElement}
    (hmem : entry ∈ d.layout.elements.entries) : entry.1 = entry.2.element.id.ToString :=
  h.key _ (h.placed entry hmem)

theorem sound_new : Document.new.Sound where
  key _ h := absurd h List.not_mem_nil
  placed _ h := absurd h List.not_mem_nil

theorem Sound.add_element (h : d.Sound) {e : Element} {store : Hashtable (List Char) Element}
    (hadd : d.pipeline.element_store.Add e.id.ToString e = some store) :
    Sound { d with pipeline := { d.pipeline with element_store := store } } := by
  have hentries := Hashtable.entries_of_add hadd
  constructor
  · intro entry hmem
    change entry ∈ store.entries at hmem
    rw [hentries, List.mem_append, List.mem_singleton] at hmem
    rcases hmem with hmem | rfl
    · exact h.key entry hmem
    · rfl
  · intro entry hmem
    change _ ∈ store.entries
    rw [hentries]
    exact List.mem_append_left _ (h.placed entry hmem)

theorem Sound.add_position (h : d.Sound) {ce : CanvasElement}
    {elements : Hashtable (List Char) CanvasElement}
    (hmem : (ce.element.id.ToString, ce.element) ∈ d.pipeline.element_store.entries)
    (hadd : d.layout.elements.Add ce.element.id.ToString ce = some elements) :
    Sound { d with layout := ⟨elements⟩ } := by
  refine ⟨h.key, fun entry hentry => ?_⟩
  change entry ∈ elements.entries at hentry
  rw [Hashtable.entries_of_add hadd, List.mem_append, List.mem_singleton] at hentry
  rcases hentry with hentry | rfl
  · exact h.placed entry hentry
  · exact hmem

theorem Sound.layoutLeaves_eq_nil (h : d.Sound)
    (hes : es.Perm d.pipeline.element_store.entries) (hcs : cs.Perm d.layout.elements.entries)
    (hempty : d.pipelineLeaves es = []) : layoutLeaves cs = [] := by
  obtain ⟨hes', -⟩ := List.append_eq_nil_iff.mp hempty
  have hstore : d.pipeline.element_store.entries = [] := by
    rw [List.map_eq_nil_iff.mp hes'] at hes
    exact hes.nil_eq.symm
  have hlayout : d.layout.elements.entries = [] := by
    rw [List.eq_nil_iff_forall_not_mem]
    intro entry hmem
    have := h.placed entry hmem
    rw [hstore] at this
    exact List.not_mem_nil this
  rw [hlayout] at hcs
  rw [hcs.eq_nil]
  rfl

theorem load_saved (NewGuid : ℕ → Guid) (filename : List Char) (h : d.Sound)
    (hes : es.Perm d.pipeline.element_store.entries) (hcs : cs.Perm d.layout.elements.entries)
    (hempty : empty.Empty) :
    ∃ loaded, empty.Load NewGuid filename ((nodes (d.Save filename es cs).2).map some) =
        (loaded, true) ∧ loaded.SameAs d := by
  obtain ⟨hstore, hconnections, hlayout⟩ := hempty
  have hkeys : (es.map Prod.fst).Nodup :=
    (hes.map Prod.fst).nodup_iff.mpr d.pipeline.element_store.nodup
  have hkeys' : (cs.map Prod.fst).Nodup :=
    (hcs.map Prod.fst).nodup_iff.mpr d.layout.elements.nodup
  obtain ⟨store, hread, hentries⟩ := Pipeline.read_elements NewGuid es empty.pipeline 0
    (fun entry hmem => h.key entry (hes.mem_iff.mp hmem)) (by simpa [hstore] using hkeys)
  have hpipeline : ((d.pipelineLeaves es).map sectionNode).foldlM (Pipeline.read NewGuid)
      (empty.pipeline, 0) = some (⟨store, d.pipeline.connections⟩, es.length) := by
    rw [pipelineLeaves, List.map_append, List.map_map, List.map_map, List.foldlM_append]
    simp only [Function.comp_def]
    rw [hread]
    simp [Pipeline.read_connections, hconnections]
  rw [hstore, List.nil_append] at hentries
  obtain ⟨l, hl, hplaced⟩ := Layout.read_elements (p := ⟨store, d.pipeline.connections⟩) cs
    empty.layout (fun entry hmem => h.layout_key (hcs.mem_iff.mp hmem))
    (fun entry hmem => by
      have hmem' := hes.mem_iff.mpr (h.placed entry (hcs.mem_iff.mp hmem))
      rw [hentries]
      exact List.mem_map_of_mem (f := fun entry : List Char × Element =>
        (entry.1, entry.2.loaded)) hmem')
    (by simpa [hlayout] using hkeys')
  have hlayout' : ((layoutLeaves cs).map sectionNode).foldlM
      (Layout.read ⟨store, d.pipeline.connections⟩) empty.layout = some l := by
    rw [layoutLeaves, List.map_map]
    exact hl
  rw [hlayout, List.nil_append] at hplaced
  let loaded : Document :=
    { pipeline := ⟨store, d.pipeline.connections⟩, layout := l, filename := some filename
      saved := true }
  refine ⟨loaded, ?_, ⟨?_, rfl, ?_⟩⟩
  · have hfuel : 4 ≤ ((⟨.Element, some "pipeline".toList, 1, []⟩ ::
        after "pipeline".toList (d.pipelineLeaves es) (layoutNode ::
          after "layout".toList (layoutLeaves cs) [lastNode])).map some).length + 1 := by
      rw [List.length_map, List.length_cons]
      have := length_le_after "layout".toList (layoutLeaves cs) [lastNode]
      have := length_le_after "pipeline".toList (d.pipelineLeaves es) (layoutNode ::
        after "layout".toList (layoutLeaves cs) [lastNode])
      simp only [List.length_cons, List.length_nil] at *
      omega
    rw [nodes_save, Load, List.map_cons, List.map_cons, List.length_cons, List.length_cons,
      loadNodes_skip _ _ _ _ (by simp), loadNodes_skip _ _ _ _ (by simp),
      loadNodes_sections NewGuid empty 0 _ hpipeline hlayout' (h.layoutLeaves_eq_nil hes hcs) hfuel]
  · rw [hentries]
    exact hes.map _
  · rw [hplaced]
    exact hcs.map _

end Saved

section Kept

variable (NewGuid : ℕ → Guid)

structure Extends (d d' : Document) : Prop where
  elements : d.pipeline.element_store.entries <+: d'.pipeline.element_store.entries
  connections : d.pipeline.connections <+: d'.pipeline.connections
  layout : d.layout.elements.entries <+: d'.layout.elements.entries
  filename : d'.filename = d.filename
  saved : d'.saved = d.saved

theorem Extends.refl (d : Document) : d.Extends d :=
  ⟨List.prefix_rfl, List.prefix_rfl, List.prefix_rfl, rfl, rfl⟩

theorem Extends.trans {d d' d'' : Document} (h : d.Extends d') (h' : d'.Extends d'') :
    d.Extends d'' :=
  ⟨h.elements.trans h'.elements, h.connections.trans h'.connections, h.layout.trans h'.layout,
    h'.filename.trans h.filename, h'.saved.trans h.saved⟩

theorem read_cases {s t : Pipeline × ℕ} {node : XmlNode}
    (h : Pipeline.read NewGuid s node = some t) :
    (∃ pc, t.1 = { s.1 with connections := s.1.connections ++ [pc] }) ∨
      ∃ e store, s.1.element_store.Add e.id.ToString e = some store ∧
        t.1 = { s.1 with element_store := store } := by
  unfold Pipeline.read at h
  split_ifs at h
  · obtain ⟨pc, -, h⟩ := Option.bind_eq_some_iff.mp h
    cases h
    exact .inl ⟨pc, rfl⟩
  · obtain ⟨e, -, h⟩ := Option.bind_eq_some_iff.mp h
    obtain ⟨e', -, h⟩ := Option.bind_eq_some_iff.mp h
    obtain ⟨store, hadd, h⟩ := Option.bind_eq_some_iff.mp h
    cases h
    exact .inr ⟨e', store, hadd, rfl⟩

theorem layoutRead_cases {p : Pipeline} {l l' : Layout} {node : XmlNode}
    (h : Layout.read p l node = some l') :
    ∃ ce id, p.element_store.get id = some ce.element ∧
      l.elements.Add ce.element.id.ToString ce = some l'.elements := by
  obtain ⟨ce, hce, h⟩ := Option.bind_eq_some_iff.mp h
  obtain ⟨elements, hadd, h⟩ := Option.bind_eq_some_iff.mp h
  cases h
  obtain ⟨x, -, hce⟩ := Option.bind_eq_some_iff.mp hce
  obtain ⟨y, -, hce⟩ := Option.bind_eq_some_iff.mp hce
  obtain ⟨e, hget, hce⟩ := Option.bind_eq_some_iff.mp hce
  cases hce
  exact ⟨_, _, hget, hadd⟩

theorem extends_pipeline (d : Document) (k : ℕ) (file : List (Option XmlNode)) :
    d.Extends { d with pipeline := (Pipeline.DeSerialize NewGuid (d.pipeline, k) file).1.1 } := by
  refine readSection_rel (R := fun s t : Pipeline × ℕ =>
    Extends { d with pipeline := s.1 } { d with pipeline := t.1 }) (fun s => Extends.refl _)
    Extends.trans ?_ (d.pipeline, k) file
  intro s node t h
  rcases read_cases NewGuid h with ⟨pc, ht⟩ | ⟨e, store, hadd, ht⟩
  · rw [ht]
    exact ⟨List.prefix_rfl, List.prefix_append _ _, List.prefix_rfl, rfl, rfl⟩
  · rw [ht]
    refine ⟨?_, List.prefix_rfl, List.prefix_rfl, rfl, rfl⟩
    rw [Hashtable.entries_of_add hadd]
    exact List.prefix_append _ _

theorem extends_layout (d : Document) (file : List (Option XmlNode)) :
    d.Extends { d with layout := (Layout.DeSerialize d.pipeline d.layout file).1 } := by
  refine readSection_rel (R := fun l l' : Layout =>
    Extends { d with layout := l } { d with layout := l' }) (fun l => Extends.refl _)
    Extends.trans ?_ d.layout file
  intro l node l' h
  obtain ⟨ce, id, -, hadd⟩ := layoutRead_cases h
  refine ⟨List.prefix_rfl, List.prefix_rfl, ?_, rfl, rfl⟩
  rw [Hashtable.entries_of_add hadd]
  exact List.prefix_append _ _

theorem loadNodes_rel {R : Document → Document → Prop} (refl : ∀ d, R d d)
    (trans : ∀ {d d' d''}, R d d' → R d' d'' → R d d'')
    (pipeline : ∀ d k file,
      R d { d with pipeline := (Pipeline.DeSerialize NewGuid (d.pipeline, k) file).1.1 })
    (layout : ∀ d file, R d { d with layout := (Layout.DeSerialize d.pipeline d.layout file).1 })
    (fuel : ℕ) (d : Document) (k : ℕ) (file : List (Option XmlNode)) :
    R d (loadNodes NewGuid fuel d k file).1 := by
  induction fuel generalizing d k file with
  | zero => exact refl d
  | succ fuel ih =>
    match file with
    | [] => exact refl d
    | none :: _ => exact refl d
    | some node :: rest =>
      have hpipeline := pipeline d k rest
      have hlayout := layout d rest
      unfold loadNodes
      split_ifs
      · generalize Pipeline.DeSerialize NewGuid (d.pipeline, k) rest = r at hpipeline
        match r with
        | (s, none) => exact hpipeline
        | (s, some rest) => exact trans hpipeline (ih _ _ _)
      · generalize Layout.DeSerialize d.pipeline d.layout rest = r at hlayout
        match r with
        | (l, none) => exact hlayout
        | (l, some rest) => exact trans hlayout (ih _ _ _)
      · exact ih d k rest
      · exact ih d k rest

theorem extends_of_failed {d : Document} {filename : List Char} {file : List (Option XmlNode)}
    (h : (d.Load NewGuid filename file).2 = false) :
    d.Extends (d.Load NewGuid filename file).1 := by
  have hrel := loadNodes_rel NewGuid Extends.refl Extends.trans (extends_pipeline NewGuid)
    extends_layout (file.length + 1) d 0 file
  unfold Load at h ⊢
  generalize loadNodes NewGuid (file.length + 1) d 0 file = r at h hrel
  match r with
  | (d', false) => exact hrel
  | (d', true) => cases h

theorem sound_load {d : Document} (h : d.Sound) (filename : List Char)
    (file : List (Option XmlNode)) : (d.Load NewGuid filename file).1.Sound := by
  have hrel := loadNodes_rel NewGuid (R := fun d d' => d.Sound → d'.Sound) (fun _ h => h)
    (fun h h' hs => h' (h hs)) (fun d k file h => ?_) (fun d file h => ?_) (file.length + 1) d 0
    file h
  · unfold Load
    generalize loadNodes NewGuid (file.length + 1) d 0 file = r at hrel
    match r with
    | (d', true) => exact ⟨hrel.key, hrel.placed⟩
    | (d', false) => exact hrel
  · refine readSection_invariant (P := fun s : Pipeline × ℕ => Sound { d with pipeline := s.1 })
      ?_ h file
    intro s node t hread hs
    rcases read_cases NewGuid hread with ⟨pc, ht⟩ | ⟨e, store, hadd, ht⟩
    · rw [ht]
      exact ⟨hs.key, hs.placed⟩
    · rw [ht]
      exact hs.add_element hadd
  · refine readSection_invariant (P := fun l => Sound { d with layout := l }) ?_ h file
    intro l node l' hread hs
    obtain ⟨ce, id, hget, hadd⟩ := layoutRead_cases hread
    have hmem := Hashtable.mem_of_get hget
    have hid : id = ce.element.id.ToString := hs.key _ hmem
    rw [hid] at hmem
    exact hs.add_position hmem hadd

end Kept

end Document

def brokenFile : List XmlCall :=
  [.StartDocument, .StartElement "fyre-pipeline".toList, .StartElement "pipeline".toList,
    .StartElement "gradient".toList,
    .Attribute "id".toList "c675142d-681c-432c-a354-b2ed644c3932".toList, .EndElement,
    .StartElement "edge".toList, .EndElement, .EndElement, .StartElement "layout".toList,
    .EndElement, .EndDocument]

namespace Document

section Built

def add (d : Document) (e : Element) (x y : Int32) : Option Document := do
  let element_store ← d.pipeline.element_store.Add e.id.ToString e
  let elements ← d.layout.elements.Add e.id.ToString ⟨e, x, y⟩
  return { d with
    pipeline := { d.pipeline with element_store := element_store }
    layout := ⟨elements⟩ }

def remove (d : Document) (id : Guid) : Document :=
  { d with
    pipeline := { d.pipeline with element_store := d.pipeline.element_store.Remove id.ToString }
    layout := ⟨d.layout.elements.Remove id.ToString⟩ }

def move (d : Document) (id : Guid) (x y : Int32) : Document :=
  { d with layout :=
      ⟨d.layout.elements.modify id.ToString fun ce => { ce with X := x, Y := y }⟩ }

def edit (d : Document) (e : Element) : Document :=
  { d with
    pipeline := { d.pipeline with
      element_store := d.pipeline.element_store.modify e.id.ToString fun _ => e }
    layout := ⟨d.layout.elements.modify e.id.ToString fun ce => { ce with element := e }⟩ }

/-- The documents of the editor: elements are added, removed, moved and edited, connections come and
go, and files are loaded. -/
inductive Built : Document → Prop
  | new : Built .new
  | add {d d' e x y} : Built d → d.add e x y = some d' → Built d'
  | remove {d} (id : Guid) : Built d → Built (d.remove id)
  | move {d} (id : Guid) (x y : Int32) : Built d → Built (d.move id x y)
  | edit {d} (e : Element) : Built d → Built (d.edit e)
  | connect {d} (connections : List PadConnection) : Built d →
    Built { d with pipeline := { d.pipeline with connections := connections } }
  | load {d} (NewGuid : ℕ → Guid) (filename : List Char) (file : List (Option XmlNode)) :
    Built d → Built (d.Load NewGuid filename file).1

theorem sound_of_built {d : Document} (h : d.Built) : d.Sound := by
  induction h with
  | new => exact sound_new
  | @add d d' e x y _ hadd ih =>
    obtain ⟨store, hstore, hadd⟩ := Option.bind_eq_some_iff.mp hadd
    obtain ⟨elements, helements, hadd⟩ := Option.bind_eq_some_iff.mp hadd
    cases hadd
    let ce : CanvasElement := ⟨e, x, y⟩
    have hmem : (ce.element.id.ToString, ce.element) ∈ store.entries := by
      rw [Hashtable.entries_of_add hstore]
      exact List.mem_append_right _ List.mem_cons_self
    exact (ih.add_element hstore).add_position hmem helements
  | remove id _ ih =>
    constructor
    · intro entry hmem
      exact ih.key entry (Hashtable.mem_remove.mp hmem).1
    · intro entry hmem
      obtain ⟨hmem, hne⟩ := Hashtable.mem_remove.mp hmem
      exact Hashtable.mem_remove.mpr ⟨ih.placed entry hmem, hne⟩
  | move id x y _ ih =>
    refine ⟨ih.key, fun entry hmem => ?_⟩
    obtain ⟨ce, hce, hentry⟩ := Hashtable.mem_modify.mp hmem
    have helement : entry.2.element = ce.element := by
      rw [hentry]
      split_ifs <;> rfl
    rw [helement]
    exact ih.placed _ hce
  | edit e _ ih =>
    constructor
    · intro entry hmem
      obtain ⟨e', he', hentry⟩ := Hashtable.mem_modify.mp hmem
      rw [hentry]
      split_ifs with hkey
      · exact hkey
      · exact ih.key _ he'
    · intro entry hmem
      obtain ⟨ce, hce, hentry⟩ := Hashtable.mem_modify.mp hmem
      refine Hashtable.mem_modify.mpr ⟨ce.element, ih.placed _ hce, ?_⟩
      rw [hentry]
      split_ifs <;> rfl
  | connect _ _ ih => exact ⟨ih.key, ih.placed⟩
  | load NewGuid filename file _ ih => exact sound_load NewGuid ih filename file

theorem sound_of_built_broken : (Document.new.Load (fun _ => ⟨List.replicate 32 0, rfl⟩)
    "broken.fyre".toList ((nodes brokenFile).map some)).1.Sound :=
  sound_of_built (.load _ _ _ .new)

end Built

def connectedInput : Document :=
  let id : Guid := ⟨List.replicate 32 7, rfl⟩
  let e : Element := ⟨.Input 3, id, some "rate & phase".toList⟩
  ⟨⟨⟨[(id.ToString, e)], List.nodup_singleton _⟩, [⟨id, 0, id, 1⟩]⟩,
    ⟨⟨[(id.ToString, ⟨e, -40, 25⟩)], List.nodup_singleton _⟩⟩, none, false⟩

end Document

end NaviMisc.Fyre.Files
