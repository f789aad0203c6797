import Mathlib.Data.List.Infix

/-! # Devices that are mounted for writing (`drivers/disk/disk_open.c`)

A whole disk has a name of eight characters, such as `/dev/sda`; what extends such a name is a part
of the disk.
-/

namespace MacOnLinux.Disk

open List

abbrev Name := List Char

structure DevEntry where
  isSubdevice : Bool
  devName : Name
  deriving DecidableEq, Repr

def devDir : Name := ['/', 'd', 'e', 'v', '/']

def DevEntry.clashes (dp : DevEntry) (name : Name) : Bool :=
  if dp.isSubdevice then dp.devName == name else dp.devName.isPrefixOf name

def devEntry (name : Name) : DevEntry :=
  if name.length = 8 then ⟨false, name⟩ else ⟨true, if 8 < name.length then name.take 8 else name⟩

def reserveDev (devs : List DevEntry) (name : Name) : Bool × List DevEntry :=
  if devs.any (·.clashes name) then (true, devs)
  else if devDir.isPrefixOf name then (false, devEntry name :: devs)
  else (false, devs)

/-! ## Histories -/

/-- The list after calls, the last one first, and the names that were granted. -/
def reserved : List Name → List DevEntry × List Name
  | [] => ([], [])
  | name :: earlier =>
    let (devs, granted) := reserved earlier
    match reserveDev devs name with
    | (true, devs) => (devs, granted)
    | (false, devs) => (devs, name :: granted)

def granted (names : List Name) : List Name := (reserved names).2

/-- One of the names is a disk and the other one is that disk or a part of it. -/
def Conflict (a b : Name) : Prop := a = b ∨ (a.length = 8 ∧ a <+: b) ∨ (b.length = 8 ∧ b <+: a)

def Exclusive (names : List Name) : Prop :=
  (granted names).Pairwise (fun a b => ¬ Conflict b a) ∧
    ∀ name earlier, (name :: earlier) <:+ names → (∀ g ∈ granted earlier, ¬ Conflict g name) →
      (reserveDev (reserved earlier).1 name).1 = false

/-- The first of the names that start with `disk` is `disk`. -/
def DiskFirst (names : List Name) (disk : Name) : Prop :=
  (names.filter disk.isPrefixOf).getLast? = some disk

def PartsOnce (names : List Name) : Prop :=
  ∀ name earlier, (name :: earlier) <:+ names → 8 < name.length →
    name ∉ earlier ∨ DiskFirst earlier (name.take 8)

variable {disk g name : Name} {names earlier : List Name}

/-! ## What an entry refuses -/

theorem clashes_iff (g name : Name) :
    (devEntry g).clashes name = true ↔ Conflict g name ∧ ¬ (g = name ∧ 8 < name.length) := by
  unfold devEntry
  by_cases hdisk : g.length = 8
  · rw [if_pos hdisk]
    simp only [DevEntry.clashes, Bool.false_eq_true, if_false, isPrefixOf_iff_prefix]
    constructor
    · intro hpre
      exact ⟨.inr (.inl ⟨hdisk, hpre⟩), fun ⟨heq, hlong⟩ => by subst heq; omega⟩
    · rintro ⟨rfl | ⟨-, hpre⟩ | ⟨hname, hpre⟩, -⟩
      · exact prefix_rfl
      · exact hpre
      · rw [hpre.eq_of_length (by omega)]
  · rw [if_neg hdisk]
    simp only [DevEntry.clashes, if_true, beq_iff_eq]
    split
    · rename_i hlong
      constructor
      · rintro rfl
        refine ⟨.inr (.inr ⟨by rw [length_take]; omega, take_prefix _ _⟩), ?_⟩
        rw [length_take]
        omega
      · rintro ⟨rfl | ⟨hlen, -⟩ | ⟨hname, hpre⟩, hother⟩
        · exact absurd ⟨rfl, hlong⟩ hother
        · exact absurd hlen hdisk
        · rw [prefix_iff_eq_take.mp hpre, hname]
    · rename_i hshort
      constructor
      · rintro rfl
        exact ⟨.inl rfl, fun hlong => hshort hlong.2⟩
      · rintro ⟨rfl | ⟨hlen, -⟩ | ⟨hname, hpre⟩, -⟩
        · rfl
        · exact absurd hlen hdisk
        · have hle := hpre.length_le
          omega

/-! ## What a history refuses -/

def UnderDev (names : List Name) : Prop := ∀ name ∈ names, devDir <+: name

def refused (names : List Name) (name : Name) : Bool := (reserveDev (reserved names).1 name).1

theorem granted_cons_of_refused (href : refused names name = true) :
    granted (name :: names) = granted names := by
  unfold refused at href
  rw [granted, reserved]
  dsimp only
  split
  · rfl
  · rename_i heq
    rw [heq] at href
    cases href

theorem granted_cons_of_not_refused (href : refused names name = false) :
    granted (name :: names) = name :: granted names := by
  unfold refused at href
  rw [granted, reserved]
  dsimp only
  split
  · rename_i heq
    rw [heq] at href
    cases href
  · rfl

theorem granted_subset_cons : granted names ⊆ granted (name :: names) := by
  cases href : refused names name with
  | true => rw [granted_cons_of_refused href]; exact List.Subset.refl _
  | false => rw [granted_cons_of_not_refused href]; exact subset_cons_self _ _

theorem granted_subset : granted names ⊆ names := by
  induction names with
  | nil => exact List.Subset.refl _
  | cons name names ih =>
    cases href : refused names name with
    | true =>
      rw [granted_cons_of_refused href]
      exact List.Subset.trans ih (subset_cons_self _ _)
    | false =>
      rw [granted_cons_of_not_refused href]
      exact cons_subset_cons _ ih

theorem reserved_devs (hdev : UnderDev names) : (reserved names).1 = (granted names).map devEntry := by
  induction names with
  | nil => rfl
  | cons name names ih =>
    have hname : devDir.isPrefixOf name = true :=
      isPrefixOf_iff_prefix.mpr (hdev name mem_cons_self)
    have ih := ih (forall_mem_cons.mp hdev).2
    unfold granted at ih ⊢
    rw [reserved]
    dsimp only
    cases hany : (reserved names).1.any (·.clashes name) with
    | true =>
      rw [reserveDev, if_pos hany]
      exact ih
    | false =>
      rw [reserveDev, if_neg (by rw [hany]; decide), if_pos hname]
      rw [ih]
      rfl

theorem refused_iff (hdev : UnderDev names) : refused names name = true ↔
      ∃ g ∈ granted names, Conflict g name ∧ ¬ (g = name ∧ 8 < name.length) := by
  have hany : refused names name = (reserved names).1.any (·.clashes name) := by
    unfold refused reserveDev
    split
    · rename_i hany
      exact hany.symm
    · rename_i hany
      split
      · exact (Bool.eq_false_iff.mpr hany).symm
      · exact (Bool.eq_false_iff.mpr hany).symm
  rw [hany, reserved_devs hdev, any_map, any_eq_true]
  exact exists_congr fun g => and_congr_right fun _ => clashes_iff g name

/-! ## Which names are granted -/

theorem conflict_of_disk (hdisk : disk.length = 8) (hconf : Conflict g name)
    (hpre : disk <+: name) : disk <+: g := by
  rcases hconf with rfl | ⟨hlen, hg⟩ | ⟨hlen, hg⟩
  · exact hpre
  · rcases prefix_or_prefix_of_prefix hpre hg with h | h
    · exact h
    · rw [h.eq_of_length (by omega)]
  · exact hpre.trans hg

theorem exists_granted (hdev : UnderDev names) (hdisk : disk.length = 8)
    (hmem : name ∈ names) (hpre : disk <+: name) : ∃ g ∈ granted names, disk <+: g := by
  induction names generalizing name with
  | nil => cases hmem
  | cons n names ih =>
    have hdev' : UnderDev names := (forall_mem_cons.mp hdev).2
    rcases mem_cons.mp hmem with rfl | hmem
    · cases href : refused names name with
      | true =>
        obtain ⟨g, hg, hconf, -⟩ := (refused_iff hdev').mp href
        exact ⟨g, granted_subset_cons hg, conflict_of_disk hdisk hconf hpre⟩
      | false =>
        rw [granted_cons_of_not_refused href]
        exact ⟨name, mem_cons_self, hpre⟩
    · obtain ⟨g, hg, hg'⟩ := ih hdev' hmem hpre
      exact ⟨g, granted_subset_cons hg, hg'⟩

theorem mem_granted_cons :
    g ∈ granted (name :: names) ↔ g ∈ granted names ∨ (g = name ∧ refused names name = false) := by
  cases href : refused names name with
  | true => rw [granted_cons_of_refused href]; simp
  | false => rw [granted_cons_of_not_refused href]; simp [or_comm]

theorem disk_granted_iff (hdev : UnderDev names) (hdisk : disk.length = 8) :
    disk ∈ granted names ↔ DiskFirst names disk := by
  induction names with
  | nil => simp [granted, reserved, DiskFirst]
  | cons n names ih =>
    have hdev' : UnderDev names := (forall_mem_cons.mp hdev).2
    have ih := ih hdev'
    have hshort : ∀ g, ¬ (g = disk ∧ 8 < disk.length) := fun g h => by omega
    rw [mem_granted_cons]
    by_cases hfst : names.filter disk.isPrefixOf = []
    · have hno : ∀ g ∈ names, ¬ disk <+: g := by
        intro g hg hpre
        have hmem := filter_eq_nil_iff.mp hfst g hg
        exact hmem ( isPrefixOf_iff_prefix.mpr hpre)
      have hnot : disk ∉ granted names := fun h => hno disk (granted_subset h) prefix_rfl
      constructor
      · rintro (h | ⟨rfl, -⟩)
        · exact absurd h hnot
        · rw [DiskFirst, filter_cons_of_pos (by simp), hfst]
          rfl
      intro hfirst
      have hn : n = disk := by
        rw [DiskFirst, filter_cons, hfst] at hfirst
        split at hfirst
        · simpa using hfirst
        · cases hfirst
      subst hn
      refine .inr ⟨rfl, ?_⟩
      rw [Bool.eq_false_iff]
      intro href
      obtain ⟨g, hg, hconf, -⟩ := (refused_iff hdev').mp href
      exact hno g (granted_subset hg) (conflict_of_disk hdisk hconf prefix_rfl)
    · have hsame : DiskFirst (n :: names) disk ↔ DiskFirst names disk := by
        unfold DiskFirst
        rw [filter_cons]
        split
        · rw [getLast?_cons, getLast?_eq_some_getLast hfst]
          rfl
        · rfl
      rw [hsame, ← ih]
      refine or_iff_left_of_imp ?_
      rintro ⟨rfl, href⟩
      -- an earlier name of the disk is granted, and it would clash
      obtain ⟨x, hx⟩ := exists_mem_of_ne_nil _ hfst
      obtain ⟨hmem, hpre⟩ := mem_filter.mp hx
      obtain ⟨g, hg, hpre⟩ := exists_granted hdev' hdisk hmem ( isPrefixOf_iff_prefix.mp hpre)
      have : refused names disk = true :=
        (refused_iff hdev').mpr ⟨g, hg, .inr (.inr ⟨hdisk, hpre⟩), hshort g⟩
      rw [this] at href
      cases href

theorem conflict_take (hlong : 8 < name.length) (hconf : Conflict g name) (hne : g ≠ name) :
    g = name.take 8 := by
  rcases hconf with rfl | ⟨hlen, hpre⟩ | ⟨hlen, -⟩
  · exact absurd rfl hne
  · rw [prefix_iff_eq_take.mp hpre, hlen]
  · omega

theorem length_take_eight (hlong : 8 < name.length) : (name.take 8).length = 8 := by
  rw [length_take]
  omega

theorem part_granted_iff (hdev : UnderDev names) (hlong : 8 < name.length) :
    name ∈ granted names ↔ name ∈ names ∧ name.take 8 ∉ granted names := by
  have hne : ∀ g, g = name.take 8 → g ≠ name := by
    rintro g rfl heq
    have hlen := length_take_eight hlong
    rw [heq] at hlen
    omega
  have h8 := length_take_eight hlong
  induction names with
  | nil => simp [granted, reserved]
  | cons n names ih =>
    have hdev' : UnderDev names := (forall_mem_cons.mp hdev).2
    have ih := ih hdev'
    rw [mem_granted_cons, mem_granted_cons, mem_cons]
    constructor
    · rintro (hg | ⟨rfl, href⟩)
      · refine ⟨.inr (ih.mp hg).1, ?_⟩
        rintro (hd | ⟨hd, href⟩)
        · exact (ih.mp hg).2 hd
        rw [Bool.eq_false_iff] at href
        apply href
        rw [refused_iff hdev']
        refine ⟨name, hg, ?_, fun h => ?_⟩
        · rw [← hd]
          exact .inr (.inr ⟨h8, take_prefix _ _⟩)
        · rw [← hd] at h
          exact hne _ rfl h.1.symm
      · refine ⟨.inl rfl, ?_⟩
        rintro (hd | ⟨hd, -⟩)
        · rw [Bool.eq_false_iff] at href
          apply href
          rw [refused_iff hdev']
          exact ⟨name.take 8, hd, .inr (.inl ⟨h8, take_prefix _ _⟩), fun h => hne _ rfl h.1⟩
        · exact hne _ rfl hd
    · rintro ⟨rfl | hmem, hnot⟩
      · by_cases hg : name ∈ granted names
        · exact .inl hg
        refine .inr ⟨rfl, ?_⟩
        rw [Bool.eq_false_iff]
        intro href
        obtain ⟨g, hg', hconf, hother⟩ := (refused_iff hdev').mp href
        have htake := conflict_take hlong hconf (fun h => hother ⟨h, hlong⟩)
        exact hnot (.inl (htake ▸ hg'))
      · exact .inl (ih.mpr ⟨hmem, fun h => hnot (.inl h)⟩)

/-! ## Two holders of one device -/

theorem pairwise_granted_iff (hdev : UnderDev names) :
    (granted names).Pairwise (fun a b => ¬ Conflict b a) ↔ PartsOnce names := by
  induction names with
  | nil => simp [granted, reserved, PartsOnce]
  | cons name names ih =>
    have hdev' : UnderDev names := (forall_mem_cons.mp hdev).2
    have ih := ih hdev'
    have hparts : PartsOnce (name :: names) ↔ PartsOnce names ∧
        (8 < name.length → name ∉ names ∨ DiskFirst names (name.take 8)) := by
      constructor
      · intro h
        exact ⟨fun n e hsuf => h n e (hsuf.trans (suffix_cons _ _)), h name names suffix_rfl⟩
      · rintro ⟨h, hname⟩ n e hsuf
        rcases suffix_cons_iff.mp hsuf with heq | hsuf
        · cases heq
          exact hname
        · exact h n e hsuf
    -- the second call for a part is granted unless the first one was not
    have hagain : (8 < name.length → name ∉ names ∨ DiskFirst names (name.take 8)) ↔
        (8 < name.length → name ∉ granted names) := by
      refine imp_congr_right fun hlong => ?_
      rw [part_granted_iff hdev' hlong, disk_granted_iff hdev' (length_take_eight hlong)]
      tauto
    rw [hparts, hagain, ← ih]
    cases href : refused names name with
    | true =>
      rw [granted_cons_of_refused href]
      refine ⟨fun h => ⟨h, fun hlong hmem => ?_⟩, fun h => h.1⟩
      obtain ⟨g, hg, hconf, hother⟩ := (refused_iff hdev').mp href
      have htake := conflict_take hlong hconf (fun h => hother ⟨h, hlong⟩)
      exact ((part_granted_iff hdev' hlong).mp hmem).2 (htake ▸ hg)
    | false =>
      rw [granted_cons_of_not_refused href, pairwise_cons, and_comm]
      refine and_congr_right fun _ => ?_
      have hfree : ∀ g ∈ granted names, ¬ (Conflict g name ∧ ¬ (g = name ∧ 8 < name.length)) := by
        intro g hg hconf
        rw [(refused_iff hdev').mpr ⟨g, hg, hconf⟩] at href
        cases href
      constructor
      · intro h hlong hmem
        exact h name hmem (.inl rfl)
      · intro h g hg hconf
        refine hfree g hg ⟨hconf, ?_⟩
        rintro ⟨rfl, hlong⟩
        exact h hlong hg

/-- Writers are kept apart iff no part of a disk is asked for a second time. -/
theorem exclusive_iff (hdev : UnderDev names) : Exclusive names ↔ PartsOnce names := by
  unfold Exclusive
  rw [pairwise_granted_iff hdev]
  refine and_iff_left ?_
  intro name earlier hsuf hfree
  have hdev' : UnderDev earlier :=
    fun m hm => hdev m (hsuf.subset (mem_cons_of_mem _ hm))
  by_contra href
  obtain ⟨g, hg, hconf, -⟩ := (refused_iff hdev').mp (Bool.not_eq_false _ ▸ href)
  exact hfree g hg hconf

def sda : Name := devDir ++ ['s', 'd', 'a']
def sda1 : Name := sda ++ ['1']
def sda2 : Name := sda ++ ['2']

theorem exclusive_parts : UnderDev [sda2, sda1, sda] ∧
    (Exclusive [sda2, sda1, sda] ↔ PartsOnce [sda2, sda1, sda]) := by
  have hdev : UnderDev [sda2, sda1, sda] := by
    unfold UnderDev
    decide
  exact ⟨hdev, exclusive_iff hdev⟩

theorem part_twice : UnderDev [sda1, sda1] ∧ ¬ Exclusive [sda1, sda1] := by
  refine ⟨?_, ?_⟩
  · unfold UnderDev
    decide
  · rintro ⟨hpair, -⟩
    exact (pairwise_cons.mp hpair).1 sda1 mem_cons_self (.inl rfl)

end MacOnLinux.Disk
