-- The pins that a document gives its nodes. A number may be written as such or
-- by its digits, and only a label with the letter of the analog pins in front
-- asks for the board. Main statements: `toProject_board_free` and
-- `toProject_numeral`.
import LogicWiring.Compile
import LogicWiring.Proofs.SavedDocument
import LogicWiring.Proofs.TextPieces
import Mathlib

namespace LogicWiring

/-! ## Labels that ask for the board -/

/-- The label has the letter of the analog pins in front, blanks aside. -/
def AnalogLetter (label : String) : Prop :=
  ∃ letter ∈ ['A', 'a'], (trimBlank label).toList.head? = some letter

/-- The node stands on a pin that such a label gives. -/
def NodeEntry.AsksBoard (n : NodeEntry) : Prop :=
  n.type ∈ pinTags ∧ ∃ s, n.settings.pin = some (.label s) ∧ AnalogLetter s

theorem Board.AnalogLabel.analogLetter {b : Board} {s : String} {pin : UInt32}
    (h : b.AnalogLabel (trimBlank s) pin) : AnalogLetter s := by
  obtain ⟨letter, digits, k, hlabel, hletter, -⟩ := h
  exact ⟨letter, hletter, by rw [hlabel]; rfl⟩

/-- Neither a blank label nor a number has the letter. -/
theorem AnalogLetter.not_decimal {s : String} (h : AnalogLetter s) :
    trimBlank s ≠ "" ∧ Decimal.word32? (trimBlank s) = none := by
  obtain ⟨letter, hletter, hhead⟩ := h
  obtain ⟨rest, hlabel⟩ := List.head?_eq_some_iff.1 hhead
  constructor
  · intro he
    rw [he] at hlabel
    cases hlabel
  · simp only [List.mem_cons, List.not_mem_nil, or_false] at hletter
    unfold Decimal.word32?
    rw [hlabel]
    rcases hletter with rfl | rfl <;> rfl

namespace PinSetting

variable {board board' : Option Board} {p : Option PinSetting} {pin : Option UInt32}

/-- Any board resolves other settings alike. -/
theorem Resolves.board_free (hp : ∀ s, p = some (.label s) → ¬ AnalogLetter s)
    (h : Resolves board p pin) : Resolves board' p pin := by
  cases h with
  | unset => exact .unset
  | number h => exact .number h
  | blank h => exact .blank h
  | decimal h => exact .decimal h
  | @analog s b pin hb h => exact absurd h.analogLetter (hp s rfl)

/-- What is resolved without a board does not ask for one. -/
theorem Resolves.not_analogLetter (h : Resolves none p pin) :
    ∀ s, p = some (.label s) → ¬ AnalogLetter s := by
  rintro s rfl hletter
  cases h with
  | blank h => exact hletter.not_decimal.1 h
  | decimal h => simp [hletter.not_decimal.2] at h
  | analog hb => cases hb

end PinSetting

/-- Settings that are resolved alike, and that an error names alike, are the same pin. -/
theorem resolvePin_congr {board board' : Option Board} {p p' : Option PinSetting}
    (hres : ∀ pin, PinSetting.Resolves board p pin ↔ PinSetting.Resolves board' p' pin)
    (htext : p.map PinSetting.text = p'.map PinSetting.text) (node : String) :
    resolvePin board node p = resolvePin board' node p' := by
  have hok : ∀ pin, resolvePin board node p = .ok pin ↔ resolvePin board' node p' = .ok pin := by
    intro pin
    rw [resolvePin_eq_ok_iff, resolvePin_eq_ok_iff, hres]
  cases h : resolvePin board node p with
  | ok pin => exact ((hok pin).1 h).symm
  | error e =>
    cases h' : resolvePin board' node p' with
    | ok pin =>
      rw [(hok pin).2 h'] at h
      cases h
    | error e' =>
      obtain ⟨s, rfl, rfl⟩ := resolvePin_eq_error h
      obtain ⟨s', rfl, rfl⟩ := resolvePin_eq_error h'
      rw [Option.some.inj htext]

/-! ## Nodes -/

namespace NodeEntry

variable {board board' : Option Board}

/-- The board and the pin of a node matter only as far as the pin is resolved. -/
theorem kind_eq_of_pin (n : NodeEntry) (pin : Option PinSetting) (h : n.type ∈ pinTags →
    resolvePin board n.id n.settings.pin = resolvePin board' n.id pin) :
    n.kind board = kind board' { n with settings := { n.settings with pin } } := by
  unfold kind
  dsimp only
  by_cases htype : n.type ∈ pinTags
  · rw [h htype]
  · obtain ⟨hinput, houtput⟩ : n.type ≠ "inputNode" ∧ n.type ≠ "outputNode" := by
      simpa [pinTags] using htype
    split
    case h_1 => contradiction
    case h_2 => contradiction
    all_goals rfl

theorem toNode_board_free {n : NodeEntry} (h : ¬ n.AsksBoard) :
    n.toNode board = n.toNode board' := by
  have hkind : n.kind board = n.kind board' := n.kind_eq_of_pin n.settings.pin fun htype =>
    have hlabel : ∀ s, n.settings.pin = some (.label s) → ¬ AnalogLetter s := fun s hs hletter =>
      h ⟨htype, s, hs, hletter⟩
    resolvePin_congr (fun _ => ⟨.board_free hlabel, .board_free hlabel⟩) rfl n.id
  rw [toNode, toNode, hkind]

theorem Drawable.not_asksBoard {n : NodeEntry} (h : n.Drawable none) : ¬ n.AsksBoard := by
  rintro ⟨htype, s, hs, hletter⟩
  obtain ⟨pin, hpin⟩ := h.pin htype
  exact hpin.not_analogLetter s hs hletter

end NodeEntry

/-! ## The board and the graph -/

namespace Document

/-- The graph of a document is that of its nodes and edges; the board is only asked for nodes. -/
theorem map_graph_toProject (d : Document) (chosen : Option String) :
    (d.toProject chosen).map Project.graph =
      d.nodes.mapM (NodeEntry.toNode ((d.boardName chosen).bind Board.ofName?)) >>= fun nodes =>
        (Graph.build nodes (d.edges.map EdgeEntry.toEdge)).mapError .graph := by
  rcases d.toProject_cases chosen with
    ⟨nodes, g, hnodes, hbuild, hp⟩ | ⟨e, hnodes, he⟩ | ⟨nodes, err, hnodes, hbuild, he⟩
  · rw [hp, hnodes]
    exact (congrArg (Except.mapError _) hbuild).symm
  · rw [he, hnodes]
    rfl
  · rw [he, hnodes]
    exact (congrArg (Except.mapError _) hbuild).symm

theorem not_asksBoard_of_toProject (d : Document) {chosen : Option String} {p : Project}
    (hp : d.toProject chosen = .ok p) (hboard : p.board = none) :
    ∀ n ∈ d.nodes, ¬ n.AsksBoard := by
  obtain ⟨-, hnodes, -⟩ := of_toProject hp
  rw [hboard] at hnodes
  exact fun n hn => (drawable_iff_mapM.2 ⟨_, hnodes⟩ n hn).not_asksBoard

/-- Without a label that asks for the board, a document gives the same graph or the same error
whatever board is chosen; only what is said about the board can change. So what loads without a
board loads with any, to the same graph and the same program. -/
theorem toProject_board_free (d : Document) :
    ((∀ n ∈ d.nodes, ¬ n.AsksBoard) → ∀ chosen chosen',
      (d.toProject chosen).map Project.graph = (d.toProject chosen').map Project.graph) ∧
    ∀ chosen p, d.toProject chosen = .ok p → p.board = none → ∀ chosen',
      ∃ p', d.toProject chosen' = .ok p' ∧ p'.graph = p.graph ∧
        compile p'.graph = compile p.graph := by
  have hfree : (∀ n ∈ d.nodes, ¬ n.AsksBoard) → ∀ chosen chosen',
      (d.toProject chosen).map Project.graph = (d.toProject chosen').map Project.graph := by
    intro hnodes chosen chosen'
    rw [map_graph_toProject, map_graph_toProject]
    exact congrArg (· >>= _) (mapM_congr fun n hn => NodeEntry.toNode_board_free (hnodes n hn))
  refine ⟨hfree, ?_⟩
  intro chosen p hp hboard chosen'
  have hnodes := d.not_asksBoard_of_toProject hp hboard
  have hsame := hfree hnodes chosen chosen'
  rw [hp] at hsame
  obtain ⟨p', hp', hgraph⟩ := map_eq_ok.1 hsame.symm
  exact ⟨p', hp', hgraph, congrArg compile hgraph⟩

/-! A pin of the largest board under a name that no board has. Only the unused setting of a gate
has the letter of the analog pins. -/

def padded : Document where
  nodes := [⟨"a", "inputNode", { pin := some (.label "\u2003 60 ") }⟩,
    ⟨"n", "notNode", { pin := some (.label "A0") }⟩,
    ⟨"b", "outputNode", { pin := some (.label "\t") }⟩]
  edges := [{ source := "a", target := "n" }, { source := "n", target := "b" }]
  board := some "nowhere"

theorem padded_board_free :
    (∀ n ∈ padded.nodes, ¬ n.AsksBoard) ∧
    (∀ chosen chosen',
      (padded.toProject chosen).map Project.graph = (padded.toProject chosen').map Project.graph) ∧
    (padded.toProject (some "arduino_uno")).map Project.warnings = .ok [missingPin .uno "a" 60] ∧
    ∃ p, padded.toProject none = .ok p ∧ p.board = none ∧ p.warnings = [unknownBoard "nowhere"] ∧
      ∀ chosen', ∃ p', padded.toProject chosen' = .ok p' ∧ p'.graph = p.graph ∧
        compile p'.graph = compile p.graph := by
  have hload : (padded.toProject none).map (fun p => (p.board, p.warnings)) =
      .ok (none, [unknownBoard "nowhere"]) := by cbv
  obtain ⟨p, hp, hfields⟩ := map_eq_ok.1 hload
  obtain ⟨hboard, hwarnings⟩ := Prod.mk.inj hfields
  have hnodes := padded.not_asksBoard_of_toProject hp hboard
  exact ⟨hnodes, (toProject_board_free padded).1 hnodes, by cbv, p, hp, hboard, hwarnings,
    (toProject_board_free padded).2 none p hp hboard⟩

end Document

/-! ## A pin as a number and as a numeral -/

theorem repr_ne_empty (n : Nat) : n.repr ≠ "" := by
  intro h
  have hlist := congrArg String.toList h
  rw [Nat.toList_repr] at hlist
  exact Nat.toDigits_ne_nil hlist

theorem Board.not_analogLabel_repr (b : Board) (n : Nat) (pin : UInt32) :
    ¬ b.AnalogLabel n.repr pin := by
  rintro ⟨letter, digits, k, hlabel, hletter, -⟩
  rw [Nat.toList_repr] at hlabel
  have hdigit : letter.isDigit = true := isDigit_of_mem_toDigits (hlabel ▸ List.mem_cons_self)
  simp only [List.mem_cons, List.not_mem_nil, or_false] at hletter
  rcases hletter with rfl | rfl <;> cases hdigit

theorem PinSetting.resolves_numeral_iff {board : Option Board} {n : UInt64} {s : String}
    (hs : trimBlank s = n.toNat.repr) (pin : Option UInt32) :
    Resolves board (some (.label s)) pin ↔ Resolves board (some (.number n)) pin := by
  constructor
  · rintro (_ | _ | hblank | hdecimal | ⟨-, hanalog⟩)
    · rw [hs] at hblank
      exact absurd hblank (repr_ne_empty _)
    · rw [hs, word32?_repr] at hdecimal
      split at hdecimal
      · rename_i hlt
        cases hdecimal
        exact .number (UInt32.toNat_ofNat_of_lt' hlt)
      · cases hdecimal
    · rw [hs] at hanalog
      exact absurd hanalog (Board.not_analogLabel_repr _ _ _)
  · rintro (_ | hnumber)
    rename_i pin
    refine .decimal ?_
    have hlt : n.toNat < UInt32.size := hnumber ▸ pin.toNat_lt
    rw [hs, word32?_repr, if_pos hlt, ← hnumber, UInt32.ofNat_toNat]

theorem resolvePin_numeral {n : UInt64} {s : String} (hs : trimBlank s = n.toNat.repr)
    (board : Option Board) (node : String) :
    resolvePin board node (some (.label s)) = resolvePin board node (some (.number n)) :=
  resolvePin_congr (PinSetting.resolves_numeral_iff hs) (congrArg some hs) node

/-- The node with this pin. -/
def NodeEntry.withPin (n : NodeEntry) (p : PinSetting) : NodeEntry :=
  { n with settings := { n.settings with pin := p } }

theorem NodeEntry.toNode_numeral {n : UInt64} {s : String} (hs : trimBlank s = n.toNat.repr)
    (board : Option Board) (entry : NodeEntry) :
    (entry.withPin (.label s)).toNode board = (entry.withPin (.number n)).toNode board := by
  have hkind : (entry.withPin (.label s)).kind board = (entry.withPin (.number n)).kind board :=
    (entry.withPin (.label s)).kind_eq_of_pin (some (.number n)) fun _ =>
      resolvePin_numeral hs board entry.id
  rw [toNode, toNode, hkind]
  rfl

theorem resolvePin_large {n : UInt64} (hn : UInt32.size ≤ n.toNat) (board : Option Board)
    (node : String) :
    resolvePin board node (some (.number n)) = .error (.invalidPin node n.toNat.repr) :=
  if_neg (Nat.not_lt.2 hn)

theorem NodeEntry.toNode_withPin_large {n : UInt64} (hn : UInt32.size ≤ n.toNat)
    (board : Option Board) {entry : NodeEntry} (htype : entry.type ∈ pinTags) :
    (entry.withPin (.number n)).toNode board = .error (.invalidPin entry.id n.toNat.repr) := by
  have hpin := resolvePin_large hn board entry.id
  simp only [pinTags, List.mem_cons, List.not_mem_nil, or_false] at htype
  refine map_eq_error.2 ?_
  unfold kind
  rcases htype with htype | htype <;> simp [withPin, htype, hpin, Except.map]

theorem mapM_modify_congr {ε α β : Type} {change change' : α → α} {f : α → Except ε β}
    (h : ∀ a, f (change a) = f (change' a)) (as : List α) (i : Nat) :
    (as.modify i change).mapM f = (as.modify i change').mapM f := by
  induction as generalizing i with
  | nil => simp
  | cons a as ih =>
    cases i with
    | zero => simp [List.mapM_cons, h]
    | succ i => simp [List.mapM_cons, ih]

namespace Document

/-- The document with this pin at the node at a position. -/
def withPin (d : Document) (i : Nat) (p : PinSetting) : Document :=
  { d with nodes := d.nodes.modify i (·.withPin p) }

theorem toProject_congr {d d' : Document} (hedges : d.edges = d'.edges) (hboard : d.board = d'.board)
    (hnodes : ∀ board : Option Board,
      d.nodes.mapM (NodeEntry.toNode board) = d'.nodes.mapM (NodeEntry.toNode board))
    (chosen : Option String) : d.toProject chosen = d'.toProject chosen := by
  simp only [toProject, boardName, hedges, hboard, hnodes]

theorem toProject_withPin_numeral {n : UInt64} {s : String} (hs : trimBlank s = n.toNat.repr)
    (d : Document) (i : Nat) (chosen : Option String) :
    (d.withPin i (.label s)).toProject chosen = (d.withPin i (.number n)).toProject chosen := by
  have hedges : (d.withPin i (.label s)).edges = (d.withPin i (.number n)).edges := rfl
  refine toProject_congr hedges rfl (fun board => ?_) chosen
  exact mapM_modify_congr (NodeEntry.toNode_numeral hs board) d.nodes i

variable {d : Document} {i : Nat} {n : UInt64} {chosen : Option String} {entry : NodeEntry}

/-- A number below 2^32 is the pin of the node. -/
theorem pin_of_withPin_number (hentry : d.nodes[i]? = some entry)
    (htype : entry.type ∈ NodeEntry.pinTags) (hn : n.toNat < UInt32.size) {p : Project}
    (hp : (d.withPin i (.number n)).toProject chosen = .ok p) :
    ∃ node, p.graph.nodes[i]? = some node ∧ node.kind.pin = some n.toUInt32 := by
  have hpin : n.toUInt32.toNat = n.toNat := by simpa using hn
  have hdrawn := drawn_of_mapM (of_toProject hp).2.1
  have hi : (d.withPin i (.number n)).nodes[i]? = some (entry.withPin (.number n)) := by
    simp [withPin, hentry]
  obtain ⟨hlt, hget⟩ := List.getElem?_eq_some_iff.1 hi
  have hlt' : i < p.graph.nodes.length := hdrawn.length_eq ▸ hlt
  obtain ⟨-, -, hnode⟩ := (List.forall₂_iff_get.1 hdrawn).2 i hlt hlt'
  simp only [List.get_eq_getElem, hget] at hnode
  exact ⟨_, List.getElem?_eq_getElem hlt', (hnode.pin_eq_some_iff _).2 ⟨htype, .number hpin⟩⟩

/-- A larger number is an invalid pin, named by its digits. -/
theorem toProject_withPin_large (hentry : d.nodes[i]? = some entry)
    (htype : entry.type ∈ NodeEntry.pinTags) (hn : UInt32.size ≤ n.toNat)
    (hbefore : ∀ x ∈ d.nodes.take i, x.Drawable ((d.boardName chosen).bind Board.ofName?)) :
    (d.withPin i (.number n)).toProject chosen = .error (.invalidPin entry.id n.toNat.repr) := by
  obtain ⟨hlt, rfl⟩ := List.getElem?_eq_some_iff.1 hentry
  have hsplit : (d.withPin i (.number n)).nodes =
      d.nodes.take i ++ d.nodes[i].withPin (.number n) :: d.nodes.drop (i + 1) :=
    List.modify_eq_take_cons_drop hlt
  have hmap : (d.withPin i (.number n)).nodes.mapM
      (NodeEntry.toNode ((d.boardName chosen).bind Board.ofName?)) =
        .error (.invalidPin d.nodes[i].id n.toNat.repr) := by
    rw [hsplit]
    exact mapM_error_of_split (fun x hx => (x.drawable_iff _).1 (hbefore x hx))
      (NodeEntry.toNode_withPin_large hn _ htype)
  rcases (d.withPin i (.number n)).toProject_cases chosen with
    ⟨nodes, g, hnodes, -, -⟩ | ⟨e, hnodes, he⟩ | ⟨nodes, err, hnodes, -, -⟩
  · cases hmap.symm.trans hnodes
  · cases hmap.symm.trans hnodes
    exact he
  · cases hmap.symm.trans hnodes

/-- A pin is the same as a number and as a numeral with blanks around it: documents that differ in
this alone are loaded alike, and so are all texts that hold them, such as the texts that are saved.
The number is the pin of its node, or it is too large and named by the error. -/
theorem toProject_numeral (d : Document) (i : Nat) (n : UInt64) (before after : String)
    (hbefore : ∀ c ∈ before.toList, isBlank c = true)
    (hafter : ∀ c ∈ after.toList, isBlank c = true) (chosen : Option String) :
    let number := d.withPin i (.number n)
    let label := d.withPin i (.label (before ++ n.toNat.repr ++ after))
    label.toProject chosen = number.toProject chosen ∧
    (∀ text text', Document.ofText text = .ok number → Document.ofText text' = .ok label →
      loadProject text' chosen = loadProject text chosen) ∧
    loadProject label.toText chosen = loadProject number.toText chosen ∧
    ∀ entry, d.nodes[i]? = some entry → entry.type ∈ NodeEntry.pinTags →
      (n.toNat < UInt32.size → ∀ p, number.toProject chosen = .ok p →
        ∃ node, p.graph.nodes[i]? = some node ∧ node.kind.pin = some n.toUInt32) ∧
      (UInt32.size ≤ n.toNat →
        (∀ x ∈ d.nodes.take i, x.Drawable ((d.boardName chosen).bind Board.ofName?)) →
        number.toProject chosen = .error (.invalidPin entry.id n.toNat.repr)) := by
  intro number label
  have hsame : label.toProject chosen = number.toProject chosen :=
    toProject_withPin_numeral (trimBlank_numeral hbefore hafter n.toNat) d i chosen
  have htexts : ∀ text text', Document.ofText text = .ok number → Document.ofText text' = .ok label →
      loadProject text' chosen = loadProject text chosen := by
    intro text text' hnumber hlabel
    rw [loadProject_of_document hnumber, loadProject_of_document hlabel, hsame]
  refine ⟨hsame, htexts, htexts _ _ number.ofText_toText label.ofText_toText, ?_⟩
  intro entry hentry htype
  exact ⟨fun hn p hp => pin_of_withPin_number hentry htype hn hp,
    fun hn hdrawable => toProject_withPin_large hentry htype hn hdrawable⟩

/-! The first number that is too large, as it is and as a text that spells a blank by its number. -/

def tooLargeNumber : String :=
  "\x7b\"nodes\":[\x7b\"id\":\"a\",\"type\":\"inputNode\",\"data\":\x7b\"pin\":4294967296\x7d\x7d]\x7d"

def tooLargeLabel : String :=
  "\x7b\"nodes\":[\x7b\"id\":\"a\",\"type\":\"inputNode\",
    \"data\":\x7b\"pin\":\"\\u3000 4294967296\\t\"\x7d\x7d]\x7d"

def unrouted : Document where
  nodes := [⟨"a", "inputNode", {}⟩]

theorem unrouted_numeral :
    (∀ c ∈ "\u3000 ".toList, isBlank c = true) ∧ (∀ c ∈ "\t".toList, isBlank c = true) ∧
    Document.ofText tooLargeNumber = .ok (unrouted.withPin 0 (.number 4294967296)) ∧
    Document.ofText tooLargeLabel =
      .ok (unrouted.withPin 0 (.label ("\u3000 " ++ (4294967296 : UInt64).toNat.repr ++ "\t"))) ∧
    loadProject tooLargeLabel none = loadProject tooLargeNumber none ∧
    (unrouted.withPin 0 (.number 4294967296)).toProject none =
      .error (.invalidPin "a" "4294967296") := by
  have hbefore : ∀ c ∈ "\u3000 ".toList, isBlank c = true := List.all_eq_true.1 (by cbv)
  have hafter : ∀ c ∈ "\t".toList, isBlank c = true := List.all_eq_true.1 (by cbv)
  have hnumber : Document.ofText tooLargeNumber =
      .ok (unrouted.withPin 0 (.number 4294967296)) := by cbv
  have hlabel : Document.ofText tooLargeLabel =
      .ok (unrouted.withPin 0 (.label ("\u3000 " ++ (4294967296 : UInt64).toNat.repr ++ "\t"))) := by
    cbv
  obtain ⟨-, htexts, -, hpin⟩ := toProject_numeral unrouted 0 4294967296 "\u3000 " "\t" hbefore hafter
    none
  refine ⟨hbefore, hafter, hnumber, hlabel, htexts _ _ hnumber hlabel, ?_⟩
  exact (hpin ⟨"a", "inputNode", {}⟩ rfl (by decide)).2 (by decide) (by simp)

end Document

end LogicWiring
