import MiniKvs.Store.Isolation

/-! Opening a fresh store on a directory with any files. Every file is added to some
level: one without a number gets the number -1, which the division takes to level 0,
and the number is searched in the whole path. So the levels list the SSTs and nothing
else only where there is nothing else, and the path does not mislead. -/

namespace MiniKvs

open Lib Level

variable {config : Config} {dbPath : String} {names : List String}

/-- The name is `sst_<n>.dat`. -/
def IsSstName (name : String) (n : ℕ) : Prop :=
  ∃ num : List Char, num ≠ [] ∧ (∀ c ∈ num, c.isDigit = true) ∧
    name.toList = "sst_".toList ++ (num ++ ".dat".toList) ∧ Nat.ofDigitChars 10 num 0 = n

/-- An int. -/
def InIntRange (n : ℕ) : Prop := n < 2147483648

/-- Of the files `names` the levels list the SSTs, each once and in the level of its number. -/
structure ListsSsts (dbPath : String) (names : List String) (levels : List Level) : Prop where
  listed : ∀ i path, path ∈ (levels.getD i ⟨[]⟩).sstList ↔ ∃ name ∈ names,
    path = joinPath dbPath name ∧ ∃ n, IsSstName name n ∧ InIntRange n ∧ n / sizeRatio = i
  once : ∀ i, (levels.getD i ⟨[]⟩).sstList.Nodup

/-- Every file is an SST, and the number that is found in the directory path, if any is,
gives the same level. -/
def OnlySsts (dbPath : String) (names : List String) : Prop :=
  ∀ name ∈ names, ∃ n, IsSstName name n ∧ InIntRange n ∧ ∀ num,
    searchName dbPath.toList = some num →
      InIntRange (Nat.ofDigitChars 10 num 0) ∧
        Nat.ofDigitChars 10 num 0 / sizeRatio = n / sizeRatio

theorem IsSstName.searchName {name : String} {n : ℕ} (h : IsSstName name n) :
    ∃ num, searchName name.toList = some num ∧ Nat.ofDigitChars 10 num 0 = n := by
  obtain ⟨num, hne, hdigits, hname, hn⟩ := h
  exact ⟨num, by rw [hname, searchName_digits hne hdigits], hn⟩

theorem IsSstName.unique {name : String} {n m : ℕ} (h : IsSstName name n) (h' : IsSstName name m) :
    n = m := by
  obtain ⟨num, hs, hn⟩ := h.searchName
  obtain ⟨num', hs', hm⟩ := h'.searchName
  rw [hs, Option.some.injEq] at hs'
  rw [← hn, ← hm, hs']

/-! ### The level of a file -/

theorem foundLevel_of_search {path : String} {num : List Char}
    (h : searchName path.toList = some num) {i : ℕ} : foundLevel path = some i ↔
      InIntRange (Nat.ofDigitChars 10 num 0) ∧ Nat.ofDigitChars 10 num 0 / sizeRatio = i := by
  rw [foundLevel, extractNumberFromFilename, h]
  simp only [stoi]
  by_cases hr : Nat.ofDigitChars 10 num 0 < 2147483648
  · rw [if_pos hr, InIntRange, and_iff_right hr]
    simp only [Option.some.injEq]
    rw [← Int.ofNat_tdiv, Int.toNat_natCast]
  · rw [if_neg hr]
    simp [InIntRange, hr]

/-- Loading succeeds when it finds a level for every file. -/
theorem exists_foldlM_loadIntoLsmTree : ∀ {directory : List String} (levels : List Level),
    (∀ path ∈ directory, (foundLevel path).isSome) →
    ∃ levels', directory.foldlM loadIntoLsmTree levels = .ok levels' := by
  intro directory
  induction directory with
  | nil => intro levels _; exact ⟨levels, rfl⟩
  | cons path directory ih =>
    intro levels hfound
    obtain ⟨level, hl⟩ := Option.isSome_iff_exists.mp (hfound path List.mem_cons_self)
    have hload := (@loadIntoLsmTree_eq_ok levels _ path).mpr ⟨level, hl, rfl⟩
    obtain ⟨levels', h'⟩ := ih _ fun p hp => hfound p (List.mem_cons_of_mem path hp)
    exact ⟨levels', by rw [List.foldlM_cons, hload, ok_bind, h']⟩

theorem OnlySsts.foundLevel (h : OnlySsts dbPath names) {name : String} (hname : name ∈ names) :
    ∃ n, IsSstName name n ∧ InIntRange n ∧
      foundLevel (joinPath dbPath name) = some (n / sizeRatio) := by
  obtain ⟨n, hn, hr, hpath⟩ := h name hname
  refine ⟨n, hn, hr, ?_⟩
  obtain ⟨num, hs, hval⟩ := hn.searchName
  have hjoin := searchName_joinPath dbPath name
  cases hd : searchName dbPath.toList with
  | none =>
    rw [hd, Option.none_or, hs] at hjoin
    exact (foundLevel_of_search hjoin).mpr ⟨hval.symm ▸ hr, by rw [hval]⟩
  | some num' =>
    rw [hd, Option.some_or] at hjoin
    exact (foundLevel_of_search hjoin).mpr (hpath num' hd)

theorem OnlySsts.listsSsts (h : OnlySsts dbPath names) (hnodup : names.Nodup) {levels : List Level}
    (hl : (names.map (joinPath dbPath)).foldlM loadIntoLsmTree [] = .ok levels) :
    ListsSsts dbPath names levels := by
  obtain ⟨-, hget⟩ := foldlM_loadIntoLsmTree_getD hl
  have hinj : Function.Injective (joinPath dbPath) := fun a b he => joinPath_inj.mp he
  refine ⟨fun i path => ?_, fun i => ?_⟩ <;> rw [hget]
  · rw [show (([] : List Level).getD i ⟨[]⟩).sstList = [] from rfl, List.nil_append,
      List.mem_filter, List.mem_map, decide_eq_true_eq]
    constructor
    · rintro ⟨⟨name, hm, rfl⟩, hi⟩
      obtain ⟨n, hn, hr, hfound⟩ := h.foundLevel hm
      rw [hfound, Option.some.injEq] at hi
      exact ⟨name, hm, rfl, n, hn, hr, hi⟩
    · rintro ⟨name, hm, rfl, n, hn, -, hi⟩
      obtain ⟨m, hm', -, hfound⟩ := h.foundLevel hm
      obtain rfl := hn.unique hm'
      exact ⟨⟨name, hm, rfl⟩, by rw [hfound, hi]⟩
  · exact (hnodup.map hinj).filter _

theorem ListsSsts.onlySsts {levels : List Level} (h : ListsSsts dbPath names levels)
    (hl : (names.map (joinPath dbPath)).foldlM loadIntoLsmTree [] = .ok levels) :
    OnlySsts dbPath names := by
  obtain ⟨hfound, hget⟩ := foldlM_loadIntoLsmTree_getD hl
  intro name hname
  have hmem : joinPath dbPath name ∈ names.map (joinPath dbPath) := List.mem_map_of_mem hname
  obtain ⟨i, hi⟩ := Option.isSome_iff_exists.mp (hfound _ hmem)
  -- wherever the file was put, it is an SST of that level
  have hput : joinPath dbPath name ∈ (levels.getD i ⟨[]⟩).sstList := by
    rw [hget]
    exact List.mem_append_right _ (List.mem_filter.mpr ⟨hmem, by simpa using hi⟩)
  obtain ⟨name', -, hjoin, n, hn, hr, hni⟩ := (h.listed i _).mp hput
  obtain rfl := joinPath_inj.mp hjoin
  refine ⟨n, hn, hr, fun num hnum => ?_⟩
  have hsearch : searchName (joinPath dbPath name).toList = some num := by
    rw [searchName_joinPath, hnum, Option.some_or]
  rw [hni]
  exact (foundLevel_of_search hsearch).mp hi

/-- A fresh store opened on a directory lists its SSTs, and only these, exactly when it holds
nothing else and its path does not mislead. -/
theorem open_listsSsts_iff (config : Config) (dbPath : String) {names : List String}
    (hnodup : names.Nodup) :
    (∃ store, (KVStore.new config).open dbPath (some (names.map (joinPath dbPath))) = .ok store ∧
      ListsSsts dbPath names store.levels) ↔ OnlySsts dbPath names := by
  constructor
  · rintro ⟨store, ho, h⟩
    obtain ⟨levels, hl, he⟩ := bind_eq_ok.mp ho
    cases he
    exact h.onlySsts hl
  · intro h
    have hfound : ∀ path ∈ names.map (joinPath dbPath), (foundLevel path).isSome := by
      intro path hp
      obtain ⟨name, hname, rfl⟩ := List.mem_map.mp hp
      obtain ⟨n, -, -, hfound⟩ := h.foundLevel hname
      rw [hfound]
      rfl
    obtain ⟨levels, hl⟩ := exists_foldlM_loadIntoLsmTree [] hfound
    exact ⟨_, bind_eq_ok.mpr ⟨levels, hl, rfl⟩, h.listsSsts hnodup hl⟩

/-- The number in the directory path is of the level of both files. -/
theorem open_listsSsts_iff_two : ∃ store, (KVStore.new smallConfig).open "/sst_3.dat"
    (some (["sst_2.dat", "sst_003.dat"].map (joinPath "/sst_3.dat"))) = .ok store ∧
      ListsSsts "/sst_3.dat" ["sst_2.dat", "sst_003.dat"] store.levels := by
  have hsearch : searchName "/sst_3.dat".toList = some ['3'] := by decide
  refine (@open_listsSsts_iff smallConfig "/sst_3.dat" ["sst_2.dat", "sst_003.dat"]
    (by decide)).mpr fun name hname => ?_
  have hpath : ∀ num, searchName "/sst_3.dat".toList = some num →
      InIntRange (Nat.ofDigitChars 10 num 0) ∧ Nat.ofDigitChars 10 num 0 / sizeRatio = 1 := by
    intro num hnum
    rw [hsearch, Option.some.injEq] at hnum
    subst hnum
    exact ⟨by rw [InIntRange]; decide, by decide⟩
  simp only [List.mem_cons, List.not_mem_nil, or_false] at hname
  rcases hname with rfl | rfl
  · exact ⟨2, ⟨['2'], by decide, by simp, by decide, by decide⟩,
      by rw [InIntRange]; norm_num, hpath⟩
  · exact ⟨3, ⟨['0', '0', '3'], by decide, by simp, by decide, by decide⟩,
      by rw [InIntRange]; norm_num, hpath⟩

/-- The left-over output of a merge is added to level 0. -/
theorem not_open_listsSsts : ¬ ∀ (config : Config) (dbPath : String) (names : List String),
    names.Nodup → ∃ store,
      (KVStore.new config).open dbPath (some (names.map (joinPath dbPath))) = .ok store ∧
        ListsSsts dbPath names store.levels := by
  intro h
  obtain ⟨store, ho, hl⟩ := h smallConfig "/a" ["sst_2.tmp"] (by decide)
  rw [eq_ok_okOr (.new smallConfig) (x := (KVStore.new smallConfig).open "/a" _) (by decide)] at ho
  cases ho
  obtain ⟨name, hname, -, n, ⟨num, -, -, htext, -⟩, -⟩ :=
    (hl.listed 0 "/a/sst_2.tmp").mp (by decide)
  obtain rfl := List.mem_singleton.mp hname
  have hlast := congrArg List.getLast? htext
  rw [← List.append_assoc, List.getLast?_append,
    show ".dat".toList.getLast? = some 't' from rfl, Option.some_or] at hlast
  exact absurd hlast (by decide)

end MiniKvs
