import DeskCalc.Console.World
import Mathlib.Tactic.SplitIfs

/-!
# What was written is read back

A file that is put under a path is found there again.  The path is followed as before: a file was
not put in place of a folder, and no other name stands for anything else than it did.

* `Files.find_put_of_target` : what is put where a path leads is found there.
* `Files.target_ne_device` : a path to a text file leads to no device.
* `FileSystem.Keeps` : what is written to a path is read there.
* `World.keeps_text` : the files of a closed world are so kept.
-/

namespace DeskCalc

namespace Files

variable {fs : Files} {f g : Folder} {name x path : String} {bytes : ByteArray}

theorem entry?_put_of_ne (h : (g, x) ≠ (f, name)) :
    Files.entry? (fs.put f name bytes) g x = fs.entry? g x := by
  have hbeq : ((g, x) == (f, name)) = false := beq_false_of_ne h
  have hfilter : ∀ l : List ((Folder × String) × ByteArray),
      (l.filter fun y => y.1 != (f, name)).lookup (g, x) = l.lookup (g, x) := by
    intro l
    induction l with
    | nil => rfl
    | cons y l ih =>
      obtain ⟨key, b⟩ := y
      by_cases hy : key = (f, name)
      · simp [hy, ih, List.lookup_cons, hbeq]
      · simp [hy, ih, List.lookup_cons]
  simp only [ entry?, put, List.lookup_cons, hbeq, hfilter]

theorem entry?_put_self {e : Option Entry} (h : fs.entry? f name = .ok e) :
    Files.entry? (fs.put f name bytes) f name = .ok (some (.file bytes)) := by
  unfold entry? at h ⊢
  split_ifs at h ⊢
  simp [put]

/-- A name that is no folder's. -/
def NoFolder (fs : Files) (f : Folder) (name : String) : Prop :=
  ∀ g, fs.entry? f name ≠ .ok (some (.folder g))

/-- But for the two special names, a name that can be entered is a folder's. -/
theorem entry?_of_enter {k : Folder} (hx : x ≠ "." ∧ x ≠ "..") (h : fs.enter g x = .ok k) :
    fs.entry? g x = .ok (some (.folder k)) := by
  unfold enter at h
  rw [if_neg hx.1, if_neg hx.2] at h
  cases he : fs.entry? g x with
  | error e => rw [he] at h; cases h
  | ok entry =>
    rw [he] at h
    rcases entry with - | (k' | b | d)
    · cases h
    · obtain rfl : k' = k := Except.ok.inj h
      rfl
    · cases h
    · cases h

/-- What a file is put in place of was no folder, so every folder can still be entered. -/
theorem enter_put {k : Folder} (hname : fs.NoFolder f name) (h : fs.enter g x = .ok k) :
    (fs.put f name bytes).enter g x = .ok k := by
  by_cases hdot : x = "."
  · rwa [hdot] at h ⊢
  by_cases hdots : x = ".."
  · rwa [hdots] at h ⊢
  have hne : (g, x) ≠ (f, name) := by
    intro heq
    obtain ⟨rfl, rfl⟩ := Prod.mk.inj heq
    exact hname k (entry?_of_enter ⟨hdot, hdots⟩ h)
  unfold enter at h ⊢
  rwa [entry?_put_of_ne hne]

theorem foldlM_enter_put {k : Folder} {names : List String} (hname : fs.NoFolder f name)
    (h : names.foldlM fs.enter g = .ok k) :
    names.foldlM (fs.put f name bytes).enter g = .ok k := by
  induction names generalizing g with
  | nil => exact h
  | cons x names ih =>
    rw [List.foldlM_cons] at h ⊢
    cases hx : fs.enter g x with
    | error e => rw [hx] at h; cases h
    | ok g' =>
      rw [hx] at h
      rw [enter_put hname hx]
      exact ih h

/-- What stands between the slashes of a path. -/
def parts (path : String) : List String := (Text.pieces '/' path.toList).map String.ofList

/-- Where a path starts. -/
def origin (path : String) : Folder :=
  if (parts path).head? = some "" then [] else Folder.current

/-- A path leads to a name in a folder. -/
structure Leads (fs : Files) (path : String) (f : Folder) (name : String) (slash : Bool) : Prop where
  nul : path.toList.contains '\x00' = false
  ne_empty : path ≠ ""
  size : path.utf8ByteSize ≤ maxPathBytes
  enter : ∃ before, ((parts path).filter (· ≠ "")).reverse = name :: before ∧
    before.reverse.foldlM fs.enter (origin path) = .ok f
  name : name ≠ "." ∧ name ≠ ".."
  slash : slash = decide ((parts path).getLast? = some "")

theorem follow_eq (fs : Files) (path : String) :
    fs.follow path =
      if path.toList.contains '\x00' then .error .nulByte
      else if path = "" then .error .notFound
      else if maxPathBytes < path.utf8ByteSize then .error .nameTooLong
      else match ((parts path).filter (· ≠ "")).reverse with
        | [] => .ok (.folder (origin path))
        | name :: before => (before.reverse.foldlM fs.enter (origin path)).bind fun f =>
          if name = "." ∨ name = ".." then (fs.enter f name).map .folder
          else .ok (.entry f name (decide ((parts path).getLast? = some ""))) := by
  unfold follow
  dsimp only
  rfl

theorem follow_eq_entry_iff {slash : Bool} :
    fs.follow path = .ok (.entry f name slash) ↔ fs.Leads path f name slash := by
  rw [follow_eq]
  constructor
  · intro h
    split_ifs at h with hnul hempty hsize
    cases hnames : ((parts path).filter (· ≠ "")).reverse with
    | nil => rw [hnames] at h; cases h
    | cons last before =>
      rw [hnames] at h
      dsimp only at h
      cases hg : before.reverse.foldlM fs.enter (origin path) with
      | error e => rw [hg] at h; cases h
      | ok g =>
        rw [hg] at h
        by_cases hlast : last = "." ∨ last = ".."
        · simp only [Except.bind, if_pos hlast] at h
          cases he : fs.enter g last <;> rw [he] at h <;> cases h
        · simp only [Except.bind, if_neg hlast] at h
          cases h
          exact ⟨by simpa using hnul, hempty, Nat.not_lt.1 hsize, ⟨before, hnames, hg⟩,
            not_or.1 hlast, rfl⟩
  · rintro ⟨hnul, hempty, hsize, ⟨before, hnames, hg⟩, hname, rfl⟩
    rw [if_neg (by simpa using hnul), if_neg hempty, if_neg (Nat.not_lt.2 hsize), hnames]
    simp [hg, hname, Except.bind]

theorem Leads.put {slash : Bool} (hname : fs.NoFolder f name)
    (h : fs.Leads path g x slash) : (fs.put f name bytes).Leads path g x slash :=
  { h with
    enter := by
      obtain ⟨before, hnames, hg⟩ := h.enter
      exact ⟨before, hnames, foldlM_enter_put hname hg⟩ }

theorem exists_of_target {t : Target} (h : fs.target path = .ok t) :
    ∃ f name e, fs.Leads path f name false ∧ fs.entry? f name = .ok e ∧
      ((∃ d, e = some (.device d) ∧ t = .device d) ∨
        (∀ g, e ≠ some (.folder g)) ∧ t = .file f name) := by
  unfold target at h
  simp only [bind, Except.bind] at h
  cases hp : fs.follow path with
  | error e => rw [hp] at h; cases h
  | ok place =>
    rw [hp] at h
    cases place with
    | folder f => cases h
    | entry f name slash =>
      cases slash with
      | true => cases h
      | false =>
        refine ⟨f, name, ?_⟩
        cases he : fs.entry? f name with
        | error e => simp only [he] at h; cases h
        | ok e =>
          refine ⟨e, follow_eq_entry_iff.1 hp, rfl, ?_⟩
          simp only [he] at h
          rcases e with - | (g | b | d)
          · cases hr : f.refusal? <;> rw [hr] at h <;> cases h
            exact .inr ⟨by simp, rfl⟩
          · cases h
          · cases h
            exact .inr ⟨by simp, rfl⟩
          · cases h
            exact .inl ⟨d, rfl, rfl⟩

/-- **What is put where a path leads is found there.** -/
theorem find_put_of_target (h : fs.target path = .ok (.file f name)) :
    (fs.put f name bytes).find path = .ok (.file bytes) := by
  obtain ⟨f', name', e, hleads, he, ⟨d, -, hd⟩ | ⟨hfolder, hfile⟩⟩ := exists_of_target h
  · cases hd
  · cases hfile
    have hname : fs.NoFolder f name := fun g hg => hfolder g (Except.ok.inj (he.symm.trans hg))
    have hput : (fs.put f name bytes).follow path = .ok (.entry f name false) :=
      follow_eq_entry_iff.2 (hleads.put hname)
    simp only [find, bind, Except.bind, hput, entry?_put_self he]
    rfl

theorem Leads.suffix {slash : Bool} {ending : List Char} (h : fs.Leads path f name slash)
    (hne : ending ≠ []) (hslash : '/' ∉ ending) (hpath : ending <:+ path.toList) :
    ending <:+ name.toList := by
  obtain ⟨cs, hcs⟩ := hpath
  obtain ⟨before, hnames, -⟩ := h.enter
  obtain ⟨ps, p, -, hp⟩ := Text.exists_pieces_append_last hslash cs
  have hparts : parts path = ps.map String.ofList ++ [String.ofList (p ++ ending)] := by
    rw [parts, ← hcs, hp, List.map_append, List.map_singleton]
  have hlast : String.ofList (p ++ ending) ≠ "" := fun hempty => by
    have hnil : p ++ ending = [] := by
      rw [← String.toList_ofList (l := p ++ ending), hempty, String.toList_empty]
    exact hne (List.append_eq_nil_iff.1 hnil).2
  have hkept : [String.ofList (p ++ ending)].filter (· ≠ "") = [String.ofList (p ++ ending)] :=
    List.filter_cons_of_pos (by simpa only [decide_eq_true_eq] using hlast)
  rw [hparts, List.filter_append, hkept, List.reverse_append] at hnames
  obtain rfl : String.ofList (p ++ ending) = name := (List.cons.inj hnames).1
  exact ⟨p, String.toList_ofList.symm⟩

theorem device_find?_eq_none (h : ".txt".toList <:+ name.toList) : Device.find? f name = none := by
  have hnames : ∀ d ∈ Device.standard, ¬ ".txt".toList <:+ d.1.2.toList := by decide +kernel
  refine List.lookup_eq_none_iff.2 fun d hd => ?_
  rw [bne_iff_ne]
  intro heq
  exact hnames d hd (by rwa [← heq])

/-- **A path to a text file leads to no device.** -/
theorem target_ne_device {d : Device} (hpath : ".txt".toList <:+ path.toList) :
    fs.target path ≠ .ok (.device d) := by
  intro h
  obtain ⟨f, name, e, hleads, he, ⟨d', rfl, hd⟩ | ⟨-, hfile⟩⟩ := exists_of_target h
  · have hname := hleads.suffix (by decide) (by decide) hpath
    unfold entry? at he
    split_ifs at he
    rw [device_find?_eq_none hname] at he
    cases hl : fs.contents.lookup (f, name) <;> cases hf : f.find? name <;> simp [hl, hf] at he
  · cases hfile

end Files

namespace Console

/-- What is written to the path is read there as long as the files stay as they are, and reading it
changes nothing. -/
def FileSystem.Keeps (φ : Type) [FileSystem φ] (path : String) : Prop :=
  ∀ (w v : Host φ) (text : String), (w.write path text).1 = .ok () →
    v.files = (w.write path text).2.files → v.read path = (.ok text, v)

/-- **A closed world keeps text files.** -/
theorem World.keeps_text {path : String} (hpath : ".txt".toList <:+ path.toList) :
    FileSystem.Keeps Files path := by
  intro w v text h hfiles
  simp only [Host.write, FileSystem.write] at h hfiles
  cases ht : w.files.target path with
  | error e => rw [ht] at h; cases h
  | ok t =>
    cases t with
    | device d => exact absurd ht (Files.target_ne_device hpath)
    | file f name =>
      rw [ht] at hfiles
      have htext : FileError.textOf text.toUTF8 = .ok text := by
        have hutf8 : String.fromUTF8? text.toUTF8 = some text := dif_pos text.isValidUTF8
        rw [FileError.textOf, hutf8]
      simp only [Host.read, FileSystem.read, hfiles, Files.find_put_of_target ht, htext]

end Console

end DeskCalc
