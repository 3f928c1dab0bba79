import MmixBackend.Proofs.Source.Scoping
import MmixBackend.Source.Walk

/-!
# Nodes with the declarations in scope

`Program.sites` lists the nodes of a program in the order of a walk, each with the scope that it
stands in. A declaration stands inside of its own block, so does the expression behind the block,
and the body of a function stands inside of the parameters. The types that are written in a node are
read in the same scope.

## Main statements

- `Program.sites_map_snd`: these are the nodes of a walk over the program.
-/

namespace MmixBackend.Source

/-- A node and the scope in which it stands. -/
abbrev Site := Scope × Node

mutual

/-- The nodes of an expression. -/
def Expr.sites (scope : Scope) : Expr → List Site
  | .absent => []
  | .atom m kind value => [(scope, .expr (.atom m kind value))]
  | .unary m op arg => (scope, .expr (.unary m op arg)) :: arg.sites scope
  | .deref m arg => (scope, .expr (.deref m arg)) :: arg.sites scope
  | .binary m op fst snd => (scope, .expr (.binary m op fst snd)) :: (fst.sites scope ++ snd.sites scope)
  | .name m ident => [(scope, .expr (.name m ident))]
  | .index m array idx => (scope, .expr (.index m array idx)) :: (array.sites scope ++ idx.sites scope)
  | .select m record comp =>
    (scope, .expr (.select m record comp)) :: (record.sites scope ++ [(scope, .compName comp)])
  | .call m ident args => (scope, .expr (.call m ident args)) :: Expr.sitesAll scope args
  | .block m stmts => (scope, .expr (.block m stmts)) :: Stmt.sitesAll scope stmts
  | .cast m arg type => (scope, .expr (.cast m arg type)) :: arg.sites scope
  | .scope m decls body =>
    (scope, .expr (.scope m decls body)) ::
      (Decl.sitesAll (blockScope decls :: scope) decls ++ body.sites (blockScope decls :: scope))

/-- The nodes of expressions from left to right. -/
def Expr.sitesAll (scope : Scope) : List Expr → List Site
  | [] => []
  | e :: es => e.sites scope ++ Expr.sitesAll scope es

/-- The nodes of a statement. -/
def Stmt.sites (scope : Scope) : Stmt → List Site
  | .absent => []
  | .eval m e => (scope, .stmt (.eval m e)) :: e.sites scope
  | .assign m dst src => (scope, .stmt (.assign m dst src)) :: (dst.sites scope ++ src.sites scope)
  | .cond m test yes no =>
    (scope, .stmt (.cond m test yes no)) :: (test.sites scope ++ yes.sites scope ++ no.sites scope)
  | .loop m test body => (scope, .stmt (.loop m test body)) :: (test.sites scope ++ body.sites scope)

/-- The nodes of statements in order. -/
def Stmt.sitesAll (scope : Scope) : List Stmt → List Site
  | [] => []
  | s :: ss => s.sites scope ++ Stmt.sitesAll scope ss

/-- The nodes of a declaration of the block that `scope` is the inside of. -/
def Decl.sites (scope : Scope) : Decl → List Site
  | .fn m name params type body =>
    (scope, .decl (.fn m name params type body)) ::
      ((params.map fun p => (scope, Node.decl p.decl)) ++ body.sites (paramScope params :: scope))
  | .var m name type => [(scope, .decl (.var m name type))]
  | .typ m name type => [(scope, .decl (.typ m name type))]
  | .par m name type => [(scope, .decl (.par m name type))]
  | .comp m name type => [(scope, .decl (.comp m name type))]

/-- The nodes of declarations in order. -/
def Decl.sitesAll (scope : Scope) : List Decl → List Site
  | [] => []
  | d :: ds => d.sites scope ++ Decl.sitesAll scope ds

end

/-- The nodes of a program with their scopes. -/
def Program.sites (p : Program) : List Site :=
  ([], .program p) :: Decl.sitesAll [blockScope p.decls] p.decls

/-- The blocks of declarations among nodes, each with the scope outside of it. -/
def blocksOf (sites : List Site) : List (Scope × List Decl) := sites.filterMap fun
  | (scope, .program p) => some (scope, p.decls)
  | (scope, .expr (.scope _ decls _)) => some (scope, decls)
  | _ => none

theorem blocksOf_append (sites sites' : List Site) :
    blocksOf (sites ++ sites') = blocksOf sites ++ blocksOf sites' :=
  List.filterMap_append

mutual

theorem Expr.sites_map_snd (scope : Scope) :
    ∀ e : Expr, (e.sites scope).map Prod.snd = e.walk fun _ => true
  | .absent => by simp [Expr.sites, Expr.walk]
  | .atom .. | .name .. => by simp [Expr.sites, Expr.walk, Node.below]
  | .unary _ _ arg | .deref _ arg | .cast _ arg _ => by
    simp [Expr.sites, Expr.walk, Node.below, arg.sites_map_snd]
  | .binary _ _ fst snd | .index _ fst snd => by
    simp [Expr.sites, Expr.walk, Node.below, fst.sites_map_snd, snd.sites_map_snd]
  | .select _ record _ => by simp [Expr.sites, Expr.walk, Node.below, record.sites_map_snd]
  | .call _ _ args => by simp [Expr.sites, Expr.walk, Node.below, Expr.sitesAll_map_snd scope args]
  | .block _ stmts => by simp [Expr.sites, Expr.walk, Node.below, Stmt.sitesAll_map_snd scope stmts]
  | .scope _ decls body => by
    simp [Expr.sites, Expr.walk, Node.below, Decl.sitesAll_map_snd _ decls, body.sites_map_snd]

theorem Expr.sitesAll_map_snd (scope : Scope) : ∀ es : List Expr,
    (Expr.sitesAll scope es).map Prod.snd = Expr.walkAll (fun _ => true) es
  | [] => by simp [Expr.sitesAll, Expr.walkAll]
  | e :: es => by simp [Expr.sitesAll, Expr.walkAll, e.sites_map_snd, Expr.sitesAll_map_snd scope es]

theorem Stmt.sites_map_snd (scope : Scope) :
    ∀ s : Stmt, (s.sites scope).map Prod.snd = s.walk fun _ => true
  | .absent => by simp [Stmt.sites, Stmt.walk]
  | .eval _ e => by simp [Stmt.sites, Stmt.walk, Node.below, e.sites_map_snd]
  | .assign _ dst src => by
    simp [Stmt.sites, Stmt.walk, Node.below, dst.sites_map_snd, src.sites_map_snd]
  | .cond _ test yes no => by
    simp [Stmt.sites, Stmt.walk, Node.below, test.sites_map_snd, yes.sites_map_snd, no.sites_map_snd]
  | .loop _ test body => by
    simp [Stmt.sites, Stmt.walk, Node.below, test.sites_map_snd, body.sites_map_snd]

theorem Stmt.sitesAll_map_snd (scope : Scope) : ∀ ss : List Stmt,
    (Stmt.sitesAll scope ss).map Prod.snd = Stmt.walkAll (fun _ => true) ss
  | [] => by simp [Stmt.sitesAll, Stmt.walkAll]
  | s :: ss => by simp [Stmt.sitesAll, Stmt.walkAll, s.sites_map_snd, Stmt.sitesAll_map_snd scope ss]

theorem Decl.sites_map_snd (scope : Scope) :
    ∀ d : Decl, (d.sites scope).map Prod.snd = d.walk fun _ => true
  | .fn _ _ params _ body => by
    simp [Decl.sites, Decl.walk, Node.below, body.sites_map_snd, Function.comp_def]
  | .var .. | .typ .. | .par .. | .comp .. => by simp [Decl.sites, Decl.walk, Node.below]

theorem Decl.sitesAll_map_snd (scope : Scope) : ∀ ds : List Decl,
    (Decl.sitesAll scope ds).map Prod.snd = Decl.walkAll (fun _ => true) ds
  | [] => by simp [Decl.sitesAll, Decl.walkAll]
  | d :: ds => by simp [Decl.sitesAll, Decl.walkAll, d.sites_map_snd, Decl.sitesAll_map_snd scope ds]

end

/-- **The sites are the nodes of the program.** -/
theorem Program.sites_map_snd (p : Program) : p.sites.map Prod.snd = p.nodes := by
  simp [Program.sites, Program.nodes, Program.walk, Node.below, Decl.sitesAll_map_snd]

end MmixBackend.Source
