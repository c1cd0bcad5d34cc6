/-!
# Pages of the preview

The page that the preview shows, and the script in it that fetches the data and lays out the
graph. A text is kept as its lines, each of which ends with a line feed.
-/

namespace ComponentGraph.Preview

/-- The text of lines that all end with a line feed. -/
def textOfLines (lines : List String) : String := String.join (lines.map (· ++ "\n"))

def indexPage : String :=
  textOfLines [
    "<!DOCTYPE html>",
    "<html lang=\"en\">",
    "<head>",
    "  <meta charset=\"utf-8\">",
    "  <title>vurif</title>",
    "  <script src=\"https://unpkg.com/cytoscape@3.28.1/dist/cytoscape.min.js\"></script>",
    "  <style>",
    "    html, body \x7b margin: 0; height: 100%; \x7d",
    "    #cy \x7b width: 100%; height: 100%; display: block; \x7d",
    "  </style>",
    "</head>",
    "<body>",
    "  <div id=\"cy\"></div>",
    "  <script src=\"/cy.client.js\"></script>",
    "</body>",
    "</html>"]

def clientScript : String :=
  textOfLines [
    "var measureText = function (target) \x7b",
    "  var canvas = document.createElement('canvas')",
    "  var ctx = canvas.getContext('2d')",
    "  ctx.font = [",
    "    target.style('font-style'),",
    "    target.style('font-weight'),",
    "    target.style('font-size'),",
    "    target.style('font-family')",
    "  ].join(' ')",
    "  return ctx.measureText(target.data('id'))",
    "\x7d",
    "",
    "var labelWidth = function (target) \x7b",
    "  return measureText(target).width + 16",
    "\x7d",
    "",
    "fetch('/data.json')",
    "  .then(function (response) \x7b return response.json() \x7d)",
    "  .then(function (value) \x7b",
    "    cytoscape(\x7b",
    "      container: document.getElementById('cy'),",
    "      elements: Array.isArray(value) ? value : [],",
    "      style: [",
    "        \x7b",
    "          selector: 'node',",
    "          style: \x7b",
    "            'background-color': '#11479e',",
    "            color: '#ffffff',",
    "            content: 'data(id)',",
    "            shape: 'round-rectangle',",
    "            'text-valign': 'center',",
    "            'text-halign': 'center',",
    "            width: labelWidth",
    "          \x7d",
    "        \x7d,",
    "        \x7b",
    "          selector: 'edge',",
    "          style: \x7b",
    "            width: 4,",
    "            'target-arrow-shape': 'triangle',",
    "            'line-color': '#9dbaea',",
    "            'target-arrow-color': '#9dbaea',",
    "            'curve-style': 'bezier'",
    "          \x7d",
    "        \x7d",
    "      ],",
    "      layout: \x7b",
    "        name: 'breadthfirst',",
    "        fit: true,",
    "        padding: 16,",
    "        directed: true,",
    "        avoidOverlap: true,",
    "        grid: true",
    "      \x7d",
    "    \x7d)",
    "  \x7d)",
    "  .catch(function (reason) \x7b console.error(reason) \x7d)"]

end ComponentGraph.Preview
